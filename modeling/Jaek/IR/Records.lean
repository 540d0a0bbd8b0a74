import Jaek.Typechecker.Context

/-!
# The layout of records

`createRecordMap` of `IRTranslator` and the offsets that constructors and field accesses use: field
number `n` of a record stands at byte `8 * n`.
-/

namespace Jaek.IRTranslator

def createRecordMap (type : RecordType) : LinkedMap String ℕ :=
  (type.fields.entries.foldl (fun (map, counter) field => (map.insert field.1 counter, counter + 1))
    (.empty, 0)).1

/-- The field `records` of the translator. -/
def records (context : Context) : LinkedMap String (LinkedMap String ℕ) :=
  context.recordTypes.mapValues createRecordMap

/-- The offset at which a field of a record is read and written. -/
def fieldOffset (records : LinkedMap String (LinkedMap String ℕ)) (type name : String) : Option ℕ :=
  ((records.get? type).bind (·.get? name)).map (8 * ·)

/-- The offsets at which a constructor stores its arguments, in their order. -/
def constructorOffsets (records : LinkedMap String (LinkedMap String ℕ)) (fn : String) :
    Option (List ℕ) :=
  (records.get? fn).map fun map => (List.range map.entries.length).map (8 * ·)

/-- The fields are numbered in the order of their declaration. -/
theorem entries_createRecordMap (type : RecordType) :
    (createRecordMap type).entries = type.fields.keys.zipIdx := by
  have hfold : ∀ (entries : List (String × OrdinaryType)) (map : LinkedMap String ℕ) (counter : ℕ),
      (entries.map Prod.fst).Nodup → (∀ x ∈ entries.map Prod.fst, map.get? x = none) →
      (entries.foldl (fun (p : LinkedMap String ℕ × ℕ) field =>
        (p.1.insert field.1 p.2, p.2 + 1)) (map, counter)).1.entries =
        map.entries ++ (entries.map Prod.fst).zipIdx counter := by
    intro entries
    induction entries with
    | nil => intro map counter _ _; simp
    | cons field entries ih =>
      intro map counter hnodup hnone
      rw [List.map_cons, List.nodup_cons] at hnodup
      have hnew : map.get? field.1 = none := hnone field.1 List.mem_cons_self
      rw [List.foldl_cons, ih _ _ hnodup.2, LinkedMap.entries_insert_of_none _ hnew, List.map_cons,
        List.zipIdx_cons, List.append_assoc]
      · rfl
      · intro x hx
        have hne : x ≠ field.1 := by
          rintro rfl
          exact hnodup.1 hx
        rw [LinkedMap.get?_insert_of_ne _ _ hne]
        exact hnone x (List.mem_cons_of_mem _ hx)
  exact hfold type.fields.entries .empty 0 type.fields.nodup fun _ _ => rfl

/-- The number of a field is its place in the declaration. -/
theorem get?_createRecordMap (type : RecordType) (name : String) :
    (createRecordMap type).get? name = type.fields.place name := by
  refine Option.ext fun n => ?_
  rw [← LinkedMap.mem_entries_iff, entries_createRecordMap, List.mk_mem_zipIdx_iff_getElem?,
    LinkedMap.place_eq_some]

end Jaek.IRTranslator
