import Jaek.Data.Except
import Jaek.IR.Records
import Jaek.Kompiler

/-!
# Record layouts across files

The first declaration of a record that a file loads gives the record its fields: its own definitions come
first, then the interfaces in the order in which they are first loaded. `Loaded` says so of the state of
the compiler, and every step of `createTopLevelContext` keeps it. The checks of later declarations compare
names and types of fields, not their places.
-/

namespace Jaek.Kompiler

open AST Except

variable {L : Library} {inFile : SourceFile}

/-! ## What a context says about a record -/

/-- The record type that a name is bound to. -/
def recordAt (Γ : Context) (name : String) : Option RecordType :=
  (Γ.lookup name).bind ContextType.record?

/-- A context as the compiler makes it: one scope, with every record under its own name. -/
structure TopLevel (Γ : Context) : Prop where
  single : ∃ scope, Γ.stack = [scope]
  names : ∀ id type, recordAt Γ id = some type → type.name = id

/-- A binding in the one scope hides the older one of its name and no other. -/
theorem lookup_bind {Γ : Context} (h : TopLevel Γ) (id : String) (type : ContextType) (x : String) :
    (Γ.bind id type).lookup x = if x = id then some type else Γ.lookup x := by
  obtain ⟨scope, hscope⟩ := h.single
  rw [Context.bind, Context.lookup, Context.lookup, hscope]
  simp only [List.findSome?_cons, List.findSome?_nil, LinkedMap.get?_insert]
  split_ifs <;> rfl

/-- The context at the start has one scope. -/
theorem topLevel_init : TopLevel .init where
  single := ⟨.empty, rfl⟩
  names := by intro id type h; cases h

/-- A binding keeps the context in one scope, when a record is bound under its own name. -/
theorem TopLevel.bind {Γ : Context} (h : TopLevel Γ) {id : String} {type : ContextType}
    (htype : ∀ record, type.record? = some record → record.name = id) :
    TopLevel (Γ.bind id type) where
  single := by
    obtain ⟨scope, hscope⟩ := h.single
    exact ⟨scope.insert id type, by rw [Context.bind, hscope]⟩
  names := by
    intro x record hx
    rw [recordAt, lookup_bind h] at hx
    split at hx
    · rename_i heq
      exact heq ▸ htype record hx
    · exact h.names x record hx

/-- The translator sees the records of the context. -/
theorem get?_recordTypes {Γ : Context} (h : TopLevel Γ) (name : String) :
    Γ.recordTypes.get? name = recordAt Γ name := by
  obtain ⟨scope, hscope⟩ := h.single
  have hlookup : ∀ x, Γ.lookup x = scope.get? x := by
    intro x
    rw [Context.lookup, hscope, List.findSome?_cons, List.findSome?_nil]
    cases scope.get? x <;> rfl
  have hnames : ∀ p ∈ scope.entries, ∀ type, p.2.record? = some type → type.name = p.1 := by
    intro p hp type htype
    have hget : scope.get? p.1 = some p.2 := scope.mem_entries_iff.mp hp
    exact h.names p.1 type (by rw [recordAt, hlookup, hget, Option.bind_some, htype])
  -- the entry under the name decides, wherever it stands
  have hfold : ∀ (entries : List (String × ContextType)) (acc : LinkedMap String RecordType),
      (entries.map Prod.fst).Nodup →
      (∀ p ∈ entries, ∀ type, p.2.record? = some type → type.name = p.1) →
      (entries.foldl Context.addRecordType acc).get? name =
        (((entries.find? fun p => p.1 = name).map Prod.snd).bind ContextType.record?).or
          (acc.get? name) := by
    intro entries
    induction entries with
    | nil => intro acc _ _; rfl
    | cons p entries ih =>
      intro acc hnodup hnames
      rw [List.map_cons, List.nodup_cons] at hnodup
      have hrest := fun q hq => hnames q (List.mem_cons_of_mem _ hq)
      rw [List.foldl_cons, ih _ hnodup.2 hrest, List.find?_cons, Context.addRecordType]
      by_cases hp : p.1 = name
      · have hnone : entries.find? (fun p => p.1 = name) = none := by
          rw [List.find?_eq_none]
          intro q hq heq
          have heq : q.1 = name := by simpa using heq
          exact hnodup.1 (List.mem_map.mpr ⟨q, hq, heq.trans hp.symm⟩)
        rw [hnone]
        simp only [hp, decide_true, Option.map_some, Option.map_none, Option.bind_some,
          Option.bind_none, Option.none_or]
        cases hkind : p.2.record? with
        | none => rfl
        | some type =>
          have hname := hnames p List.mem_cons_self type hkind
          show (acc.insert type.name type).get? name = some type
          rw [hname.trans hp, LinkedMap.get?_insert_self]
      · simp only [hp, decide_false]
        cases hkind : p.2.record? with
        | none => rfl
        | some type =>
          have hne : name ≠ type.name := by
            intro hname
            exact hp ((hnames p List.mem_cons_self type hkind).symm.trans hname.symm)
          show Option.or _ ((acc.insert type.name type).get? name) = _
          rw [LinkedMap.get?_insert_of_ne _ _ hne]
  rw [Context.recordTypes, hscope, List.foldl_cons, List.foldl_nil, hfold _ _ scope.nodup hnames,
    LinkedMap.get?_empty, Option.or_none, recordAt, hlookup]
  rfl

/-! ## Declarations -/

/-- The records that are declared in a list of definitions. -/
def recordsOf {A : Type} (definitions : List (Definition A)) : List RhoRecord :=
  definitions.filterMap fun definition =>
    match definition with
    | .rhoRecord record => some record
    | _ => none

/-- The names of the fields, in the order in which they are declared. -/
def fieldNames (record : RhoRecord) : List String := record.fields.flatMap (·.ids)

/-- The type that a declared record is bound to. -/
def typeOf (record : RhoRecord) : RecordType := ⟨record.name, fieldMap record⟩

/-- The first declaration of a record. -/
def firstRecord (declarations : List RhoRecord) (name : String) : Option RhoRecord :=
  declarations.find? fun record => record.name = name

/-- The place of a field in the first declaration of its record. -/
def placeIn (declarations : List RhoRecord) (name field : String) : Option ℕ :=
  (firstRecord declarations name).bind fun record => (fieldMap record).place field

/-- The context has every field of the declarations. -/
def FieldsIn (Γ : Context) (declarations : List RhoRecord) : Prop :=
  ∀ record ∈ declarations, ∀ field ∈ fieldNames record,
    ∃ type, recordAt Γ record.name = some type ∧ (type.fields.get? field).isSome

/-- The records of two lists in a row. -/
theorem recordsOf_append {A : Type} (xs ys : List (Definition A)) :
    recordsOf (xs ++ ys) = recordsOf xs ++ recordsOf ys := List.filterMap_append

/-- A name is looked up in the first list and then in the second. -/
theorem firstRecord_append (xs ys : List RhoRecord) (name : String) :
    firstRecord (xs ++ ys) name = (firstRecord xs name).or (firstRecord ys name) := by
  rw [firstRecord, List.find?_append]
  rfl

/-- Every declared field is in the map of fields. -/
theorem fieldMap_get? (record : RhoRecord) {field : String} (h : field ∈ fieldNames record) :
    ((fieldMap record).get? field).isSome := by
  have hids : ∀ (ids : List String) (type : Typ) (m : LinkedMap String OrdinaryType),
      field ∈ ids ∨ (m.get? field).isSome →
      ((ids.foldl (fun fieldMap id => fieldMap.insert id (translateType type)) m).get? field).isSome := by
    intro ids type
    induction ids with
    | nil => intro m hm; simpa using hm
    | cons id ids ih =>
      intro m hm
      rw [List.foldl_cons]
      refine ih _ ?_
      rw [LinkedMap.get?_insert]
      split_ifs with heq
      · exact .inr rfl
      · simpa [heq] using hm
  have hdecls : ∀ (decls : List RawVarDeclList) (m : LinkedMap String OrdinaryType),
      field ∈ decls.flatMap (·.ids) ∨ (m.get? field).isSome →
      ((decls.foldl (fun fieldMap decl => decl.ids.foldl (fun fieldMap id =>
        fieldMap.insert id (translateType decl.type)) fieldMap) m).get? field).isSome := by
    intro decls
    induction decls with
    | nil => intro m hm; simpa using hm
    | cons decl decls ih =>
      intro m hm
      rw [List.foldl_cons]
      refine ih _ ?_
      rw [List.flatMap_cons, List.mem_append, or_assoc, or_left_comm] at hm
      rcases hm with hm | hm
      · exact .inl hm
      · exact .inr (hids decl.ids decl.type m hm)
  exact hdecls record.fields .empty (.inl h)

/-- Both checks of a later declaration look for its fields in the first one. -/
theorem mem_of_checkRecordSubtyping {header : RhoRecord} {type : RecordType}
    (h : checkRecordSubtyping header type = .ok ⟨⟩) {field : String} (hf : field ∈ fieldNames header) :
    (type.fields.get? field).isSome := by
  obtain ⟨decl, hdecl, hid⟩ := List.mem_flatMap.mp hf
  have hfield := forM_eq_ok.mp (forM_eq_ok.mp h decl hdecl) field hid
  cases hget : type.fields.get? field with
  | none => rw [hget] at hfield; cases hfield
  | some t => rfl

/-- A record that passes the check has the fields of the header. -/
theorem mem_of_checkRecordExact {header : RhoRecord} {type : RecordType}
    (h : checkRecordExact header type = .ok ⟨⟩) {field : String} (hf : field ∈ fieldNames header) :
    (type.fields.get? field).isSome := by
  obtain ⟨decl, hdecl, hid⟩ := List.mem_flatMap.mp hf
  obtain ⟨⟨⟩, hfields, -⟩ := bind_eq_ok.mp h
  have hfield := forM_eq_ok.mp (forM_eq_ok.mp hfields decl hdecl) field hid
  cases hget : type.fields.get? field with
  | none => rw [hget] at hfield; cases hfield
  | some t => rfl

/-- What some declarations have made of a context: a record is the one that was there or the first
declared, and every field declared is there. -/
structure Declares (declarations : List RhoRecord) (Γ Γ' : Context) : Prop where
  topLevel : TopLevel Γ'
  first : ∀ name, recordAt Γ' name =
    (recordAt Γ name).or ((firstRecord declarations name).map typeOf)
  fields : FieldsIn Γ' declarations

/-- No record is declared. -/
theorem Declares.refl {Γ : Context} (h : TopLevel Γ) : Declares [] Γ Γ where
  topLevel := h
  first := by intro name; simp [firstRecord]
  fields := nofun

/-- The records of two steps in a row. -/
theorem Declares.trans {xs ys : List RhoRecord} {Γ₁ Γ₂ Γ₃ : Context} (h : Declares xs Γ₁ Γ₂)
    (h' : Declares ys Γ₂ Γ₃) : Declares (xs ++ ys) Γ₁ Γ₃ where
  topLevel := h'.topLevel
  first := by
    intro name
    rw [h'.first, h.first, firstRecord_append, Option.map_or, Option.or_assoc]
  fields := by
    intro record hrecord field hfield
    rcases List.mem_append.mp hrecord with hmem | hmem
    · obtain ⟨type, htype, hget⟩ := h.fields record hmem field hfield
      exact ⟨type, by rw [h'.first, htype, Option.some_or], hget⟩
    · exact h'.fields record hmem field hfield

/-- Later declarations of the same records add nothing. -/
theorem Declares.absorb {xs ys : List RhoRecord} {Γ Γ' : Context} (h : Declares (xs ++ ys) Γ Γ')
    (hys : ys ⊆ xs) : Declares xs Γ Γ' where
  topLevel := h.topLevel
  first := by
    intro name
    rw [h.first, firstRecord_append]
    cases hfirst : firstRecord xs name with
    | some record => rw [Option.some_or]
    | none =>
      have hnone : firstRecord ys name = none := by
        rw [firstRecord, List.find?_eq_none] at hfirst ⊢
        exact fun record hrecord => hfirst record (hys hrecord)
      rw [hnone, Option.none_or]
  fields := fun record hrecord => h.fields record (List.mem_append_left _ hrecord)

/-- A binding that is no record declares nothing. -/
theorem declares_bind_other {Γ : Context} {id : String} {type : ContextType} (h : TopLevel Γ)
    (hnone : Γ.lookup id = none) (htype : type.record? = none) : Declares [] Γ (Γ.bind id type) where
  topLevel := h.bind (by rw [htype]; nofun)
  first := by
    intro name
    rw [recordAt, lookup_bind h, recordAt]
    split_ifs with heq
    · rw [heq, hnone, Option.bind_some, htype]
      rfl
    · simp [firstRecord]
  fields := nofun

/-- A name that was no record is bound to the type of the header. -/
theorem declares_bind_record {Γ : Context} {record : RhoRecord} (h : TopLevel Γ)
    (hnone : recordAt Γ record.name = none) :
    Declares [record] Γ (Γ.bind record.name (.recordType (typeOf record))) where
  topLevel := h.bind (by rintro _ ⟨⟩; rfl)
  first := by
    intro name
    rw [recordAt, lookup_bind h]
    split_ifs with heq
    · rw [heq, hnone]
      simp [firstRecord, ContextType.record?]
    · have hne : ¬ record.name = name := Ne.symm heq
      simp [firstRecord, hne, recordAt]
  fields := by
    intro record' hmem field hfield
    rw [List.mem_singleton] at hmem
    subst hmem
    refine ⟨typeOf record', ?_, fieldMap_get? record' hfield⟩
    rw [recordAt, lookup_bind h, if_pos rfl]
    rfl

/-! ## What the steps declare -/

/-- The header of a method declares no record. -/
theorem bindInterfaceMethod_declares {header : Method Unit} {Γ Γ' : Context} (h : TopLevel Γ)
    (hok : bindInterfaceMethod header Γ = .ok Γ') : Declares [] Γ Γ' := by
  unfold bindInterfaceMethod at hok
  dsimp only at hok
  split at hok
  · split_ifs at hok
    cases hok
    exact .refl h
  · rename_i hnone
    cases hok
    exact declares_bind_other h hnone rfl

/-- The header of a record declares it, unless the module has declared it before. -/
theorem bindInterfaceRecord_declares {moduleRecords : LinkedMap String RecordType}
    {header : RhoRecord} {Γ Γ' : Context} (h : TopLevel Γ)
    (hok : bindInterfaceRecord moduleRecords header Γ = .ok Γ') : Declares [header] Γ Γ' := by
  unfold bindInterfaceRecord at hok
  split at hok
  · rename_i existing hlookup
    have hrecord : recordAt Γ header.name = some existing := by
      rw [recordAt, hlookup]
      rfl
    obtain ⟨⟨⟩, hcheck, heq⟩ := bind_eq_ok.mp hok
    cases heq
    refine ⟨h, ?_, ?_⟩
    · intro name
      by_cases hname : header.name = name
      · rw [← hname, hrecord, Option.some_or]
      · simp [firstRecord, hname]
    · intro record hmem field hfield
      rw [List.mem_singleton] at hmem
      subst hmem
      refine ⟨existing, hrecord, ?_⟩
      split_ifs at hcheck
      · exact mem_of_checkRecordSubtyping hcheck hfield
      · exact mem_of_checkRecordExact hcheck hfield
  · cases hok
  · rename_i hnone
    cases hok
    exact declares_bind_record h (by rw [recordAt, hnone]; rfl)

/-- One header, of either kind. -/
theorem bindInterfaceDefinition_declares {moduleRecords : LinkedMap String RecordType}
    {definition : Definition Unit} {Γ Γ' : Context} (h : TopLevel Γ)
    (hok : bindInterfaceDefinition moduleRecords Γ definition = .ok Γ') :
    Declares (recordsOf [definition]) Γ Γ' := by
  cases definition with
  | method header => exact bindInterfaceMethod_declares h hok
  | rhoRecord header => exact bindInterfaceRecord_declares h hok
  | globalDecl g =>
    cases hok
    exact .refl h

/-- The headers of an interface, in their order. The cache of libraries is not touched. -/
theorem bindInterfaceDefinitions_declares {i : Interface} {k k' : Kompiler}
    (h : TopLevel k.returnGamma) (hok : k.bindInterfaceDefinitions i = .ok k') :
    Declares (recordsOf i.headers) k.returnGamma k'.returnGamma ∧ k'.libraries = k.libraries := by
  obtain ⟨Γ, hfold, heq⟩ := bind_eq_ok.mp hok
  cases heq
  have hdeclares := foldlM_ok []
    (I := fun done Γ => Declares (recordsOf done) k.returnGamma Γ)
    (fun done definition Γ Γ' hI hstep => by
      rw [recordsOf_append]
      exact hI.trans (bindInterfaceDefinition_declares hI.topLevel hstep)) hfold (.refl h)
  exact ⟨hdeclares, rfl⟩

/-- Loading an interface declares its records and puts it into the cache. -/
theorem checkAndLoadInterface_declares {i : Interface} {lib : String} {k k' : Kompiler}
    (h : TopLevel k.returnGamma) (hok : k.checkAndLoadInterface inFile i lib = .ok k') :
    Declares (recordsOf i.headers) k.returnGamma k'.returnGamma ∧
      k'.libraries = k.libraries.insert lib i := by
  unfold checkAndLoadInterface at hok
  split at hok
  · split_ifs at hok
    exact bindInterfaceDefinitions_declares
      (k := { k with libraries := k.libraries.insert lib _ }) h hok
  · exact bindInterfaceDefinitions_declares
      (k := { k with libraries := k.libraries.insert lib _ }) h hok

/-! ## The order of loading -/

/-- The libraries after loading one from a file. A library is parsed once. -/
def loadFile (lib : String) (file : Except String Interface) (libs : LinkedMap String Interface) :
    LinkedMap String Interface :=
  match libs.get? lib, file with
  | none, .ok i => libs.insert lib i
  | _, _ => libs

/-- The libraries after loading the files of one. -/
def loadBoth (L : Library) (lib : String) (libs : LinkedMap String Interface) :
    LinkedMap String Interface :=
  let libs := match L.eti.get? lib with
    | some file => loadFile lib file libs
    | none => libs
  match L.ri.get? lib with
  | some file => loadFile lib file libs
  | none => libs

/-- The libraries that a `.ri` file uses. -/
def usesOf (L : Library) (lib : String) (libs : LinkedMap String Interface) : List String :=
  if (L.ri.get? lib).isSome then
    match libs.get? lib with
    | some (.rhoInterface imports _) => imports
    | _ => []
  else []

/-- The libraries after the loop over the dependencies, breadth first. -/
def orderRemaining (L : Library) (remainingUses seenImports : List String)
    (libs : LinkedMap String Interface) : LinkedMap String Interface :=
  match remainingUses with
  | [] => libs
  | lib :: remainingUses =>
    if _ : lib ++ ".eti" ∈ seenImports ∨ lib ++ ".ri" ∈ seenImports then
      orderRemaining L remainingUses seenImports libs
    else if _ : (L.eti.get? lib).isSome ∨ (L.ri.get? lib).isSome then
      orderRemaining L (remainingUses ++ usesOf L lib (loadBoth L lib libs))
        (seenImports ++ (L.eti.get? lib).toList.map (fun _ => lib ++ ".eti") ++
          (L.ri.get? lib).toList.map (fun _ => lib ++ ".ri")) (loadBoth L lib libs)
    else orderRemaining L remainingUses seenImports libs
termination_by (unseen L seenImports, remainingUses.length)
decreasing_by
  · exact Prod.Lex.right _ (Nat.lt_succ_self _)
  · rename_i hseen hfile
    exact Prod.Lex.left _ _ (unseen_lt (fun h => hseen (.inl h)) (fun h => hseen (.inr h)) hfile)
  · exact Prod.Lex.right _ (Nat.lt_succ_self _)

/-- The libraries after one `use` clause. Behind a `.ri` file come the dependencies of all clauses. -/
def orderImport (L : Library) (inFile : SourceFile) (imports : List String)
    (libs : LinkedMap String Interface) (lib : String) : LinkedMap String Interface :=
  match L.eti.get? lib, L.ri.get? lib with
  | some file, _ => loadFile lib file libs
  | none, some file =>
    orderRemaining L imports [inFile.nameWithoutExtension ++ ".ri"] (loadFile lib file libs)
  | none, none => libs

/-- The `use` clauses of a module's own interface. -/
def ownUses (L : Library) (inFile : SourceFile) : List String :=
  match L.ri.get? inFile.nameWithoutExtension with
  | some (.ok (.rhoInterface imports _)) => imports
  | _ => []

/-- The interfaces a module loads, in the order in which it first loads them. -/
def loadOrder (L : Library) (inFile : SourceFile) (imports : List String) :
    LinkedMap String Interface :=
  let imports := imports ++ ownUses L inFile
  imports.foldl (orderImport L inFile imports) .empty

/-- The records of the cached libraries, in the order in which they were loaded. -/
def loadedRecords (libs : LinkedMap String Interface) : List RhoRecord :=
  libs.entries.flatMap fun entry => recordsOf entry.2.headers

/-- All declarations of records that a module sees, its own first. -/
def declarations (L : Library) (inFile : SourceFile) (imports : List String)
    (definitions : List (Definition Unit)) : List RhoRecord :=
  recordsOf definitions ++ loadedRecords (loadOrder L inFile imports)

/-! ## What loading does -/

/-- The state after some loading: the context holds the first declarations of the file's own records and of
what the libraries declare. -/
def Loaded (own : List RhoRecord) (k : Kompiler) : Prop :=
  Declares (own ++ loadedRecords k.libraries) .init k.returnGamma

variable {own : List RhoRecord} {k k' : Kompiler} {lib : String} {file : Except String Interface}
  {i : Interface}

/-- `load` keeps the invariant, and the library is in the cache after it. -/
theorem load_spec (h : Loaded own k) (hok : k.load inFile lib file = .ok (i, k')) :
    Loaded own k' ∧ k'.libraries = loadFile lib file k.libraries ∧
      k'.libraries.get? lib = some i := by
  obtain ⟨i', hast, hok⟩ := bind_eq_ok.mp hok
  obtain ⟨k₁, hload, heq⟩ := bind_eq_ok.mp hok
  cases heq
  obtain ⟨hdeclares, hlibs⟩ := checkAndLoadInterface_declares h.topLevel hload
  have htrans := Declares.trans h hdeclares
  unfold getAst at hast
  split at hast
  · rename_i hget
    cases hast
    rw [LinkedMap.insert_eq_self hget] at hlibs
    refine ⟨?_, ?_, by rw [hlibs, hget]⟩
    · rw [Loaded, hlibs]
      refine htrans.absorb fun record hrecord => List.mem_append_right _ ?_
      exact List.mem_flatMap.mpr ⟨(lib, i), k.libraries.mem_entries_iff.mpr hget, hrecord⟩
    · simp only [hlibs, loadFile, hget]
  · rename_i hget
    refine ⟨?_, ?_, by rw [hlibs, LinkedMap.get?_insert_self]⟩
    · rw [Loaded, hlibs, loadedRecords, LinkedMap.entries_insert_of_none _ hget, List.flatMap_append,
        ← List.append_assoc, List.flatMap_singleton]
      exact htrans
    · simp only [hlibs, loadFile, hget, hast]

/-- The same of the two files of a library, and what is loaded next are the uses of the cached interface. -/
theorem loadFiles_spec {imports : List String} (h : Loaded own k)
    (hok : loadFiles L inFile lib k = .ok (imports, k')) :
    Loaded own k' ∧ k'.libraries = loadBoth L lib k.libraries ∧
      imports = usesOf L lib k'.libraries := by
  obtain ⟨k₁, heti, hri⟩ := bind_eq_ok.mp hok
  -- the `.eti` file is loaded before the `.ri` file
  have h₁ : Loaded own k₁ ∧ k₁.libraries = match L.eti.get? lib with
      | some file => loadFile lib file k.libraries
      | none => k.libraries := by
    unfold loadEti at heti
    cases hfile : L.eti.get? lib with
    | some file =>
      rw [hfile] at heti
      obtain ⟨⟨i, k₂⟩, hload, heq⟩ := bind_eq_ok.mp heti
      cases heq
      exact ⟨(load_spec h hload).1, (load_spec h hload).2.1⟩
    | none =>
      rw [hfile] at heti
      cases heti
      exact ⟨h, rfl⟩
  unfold loadRi at hri
  cases hfile : L.ri.get? lib with
  | some file =>
    rw [hfile] at hri
    obtain ⟨⟨i, k₂⟩, hload, heq⟩ := bind_eq_ok.mp hri
    obtain ⟨hloaded, hlibs, hget⟩ := load_spec h₁.1 hload
    rw [h₁.2] at hlibs
    have hboth : loadBoth L lib k.libraries = k₂.libraries := by rw [loadBoth, hfile, hlibs]
    cases i with
    | rhoInterface imports' headers =>
      cases heq
      exact ⟨hloaded, hboth.symm, by rw [usesOf, hfile, hget]; rfl⟩
    | etaInterface headers =>
      cases heq
      exact ⟨hloaded, hboth.symm, by rw [usesOf, hfile, hget]; rfl⟩
  | none =>
    rw [hfile] at hri
    cases hri
    exact ⟨h₁.1, by rw [loadBoth, hfile]; exact h₁.2, by rw [usesOf, hfile]; rfl⟩

/-- The loop over the uses keeps the invariant, by induction over its own recursion. -/
theorem loadRemaining_spec {remainingUses seenImports : List String} (h : Loaded own k)
    (hok : loadRemaining L inFile remainingUses seenImports k = .ok k') :
    Loaded own k' ∧ k'.libraries = orderRemaining L remainingUses seenImports k.libraries := by
  fun_induction loadRemaining L inFile remainingUses seenImports k with
  | case1 seenImports k =>
    cases hok
    exact ⟨h, by rw [orderRemaining]⟩
  | case2 seenImports k lib remainingUses hseen ih =>
    rw [orderRemaining, dif_pos hseen]
    exact ih h hok
  | case3 seenImports k lib remainingUses hseen hfile ih =>
    obtain ⟨⟨imports, k₁⟩, hload, hok⟩ := bind_eq_ok.mp hok
    obtain ⟨hloaded, hlibs, huses⟩ := loadFiles_spec h hload
    rw [orderRemaining, dif_neg hseen, dif_pos hfile, ← hlibs, ← huses]
    exact ih imports k₁ hloaded hok
  | case4 seenImports k lib remainingUses hseen hfile ih =>
    rw [orderRemaining, dif_neg hseen, dif_neg hfile]
    exact ih h hok

/-- An import keeps it. -/
theorem loadImport_spec {imports : List String} (h : Loaded own k)
    (hok : loadImport L inFile imports k lib = .ok k') :
    Loaded own k' ∧ k'.libraries = orderImport L inFile imports k.libraries lib := by
  unfold loadImport at hok
  split at hok
  · rename_i heti
    obtain ⟨⟨i, k₁⟩, hload, heq⟩ := bind_eq_ok.mp hok
    cases heq
    obtain ⟨hloaded, hlibs, -⟩ := load_spec h hload
    exact ⟨hloaded, by simp only [orderImport, heti, hlibs]⟩
  · rename_i heti
    split at hok
    · rename_i hri
      obtain ⟨⟨i, k₁⟩, hload, hok⟩ := bind_eq_ok.mp hok
      obtain ⟨hloaded, hlibs, -⟩ := load_spec h hload
      obtain ⟨hloaded', hlibs'⟩ := loadRemaining_spec hloaded hok
      exact ⟨hloaded', by simp only [orderImport, heti, hri, hlibs', hlibs]⟩
    · cases hok

/-! ## The context of a module -/

/-- The records of the module come first, and there are no libraries yet. -/
theorem loadRecords_spec {definitions : List (Definition Unit)}
    (hok : loadRecords definitions init = .ok k) :
    Loaded (recordsOf definitions) k ∧ k.libraries = .empty := by
  refine foldlM_ok [] (I := fun done k => Loaded (recordsOf done) k ∧ k.libraries = .empty)
    ?_ hok ⟨.refl topLevel_init, rfl⟩
  rintro done definition k k' ⟨hloaded, hlibs⟩ hstep
  rw [Loaded, hlibs] at hloaded
  rw [recordsOf_append]
  cases definition with
  | rhoRecord record =>
    unfold loadRecord at hstep
    dsimp only at hstep
    split_ifs at hstep with hnew
    cases hstep
    refine ⟨?_, hlibs⟩
    have hnone : recordAt k.returnGamma record.name = none := by
      rw [← get?_recordTypes hloaded.topLevel]
      exact Option.not_isSome_iff_eq_none.mp hnew
    have hrecord := Declares.trans hloaded (declares_bind_record hloaded.topLevel hnone)
    simp only [Loaded, hlibs, loadedRecords, LinkedMap.empty, List.flatMap_nil, List.append_nil]
      at hrecord ⊢
    exact hrecord
  | method m =>
    cases hstep
    exact ⟨by rw [Loaded, hlibs]; exact (List.append_nil (recordsOf done)).symm ▸ hloaded, hlibs⟩
  | globalDecl g =>
    cases hstep
    exact ⟨by rw [Loaded, hlibs]; exact (List.append_nil (recordsOf done)).symm ▸ hloaded, hlibs⟩

/-- The definitions have every field of the headers. -/
def Covers (own headers : List RhoRecord) : Prop :=
  ∀ record ∈ headers, ∀ field ∈ fieldNames record,
    ∃ d, firstRecord own record.name = some d ∧ ((fieldMap d).get? field).isSome

/-- A header of the module's own interface that passes adds nothing the module has not declared. -/
theorem checkHeader_spec {definitions : List (Definition Unit)} {header : Definition Unit}
    (h : Loaded own k) (hlibs : k.libraries = .empty)
    (hok : checkHeader definitions k header = .ok k') :
    Loaded own k' ∧ k'.libraries = .empty ∧ Covers own (recordsOf [header]) := by
  cases header with
  | method header =>
    unfold checkHeader at hok
    dsimp only at hok
    split_ifs at hok
    obtain ⟨Γ, hfold, heq⟩ := bind_eq_ok.mp hok
    cases heq
    have hdeclares := foldlM_ok [] (I := fun _ Γ => Declares [] k.returnGamma Γ)
      (fun _ _ Γ Γ' hI hstep => hI.trans (bindInterfaceMethod_declares hI.topLevel hstep)) hfold
      (.refl h.topLevel)
    refine ⟨?_, hlibs, nofun⟩
    have htrans := Declares.trans h hdeclares
    rw [List.append_nil] at htrans
    exact htrans
  | rhoRecord header =>
    unfold checkHeader at hok
    dsimp only at hok
    split at hok
    · rename_i existing hlookup
      obtain ⟨⟨⟩, hcheck, heq⟩ := bind_eq_ok.mp hok
      cases heq
      refine ⟨h, hlibs, ?_⟩
      intro record hmem field hfield
      obtain rfl : record = header := List.mem_singleton.mp hmem
      have hrecord : recordAt k.returnGamma record.name = some existing := by
        rw [recordAt, hlookup]
        rfl
      rw [h.first, hlibs, loadedRecords, LinkedMap.empty, List.flatMap_nil, List.append_nil] at hrecord
      obtain ⟨d, hd, rfl⟩ := Option.map_eq_some_iff.mp (by simpa [recordAt, Context.lookup,
        Context.init] using hrecord)
      exact ⟨d, hd, mem_of_checkRecordSubtyping hcheck hfield⟩
    · cases hok
    · cases hok
  | globalDecl g => cases hok

/-- A module that is accepted holds the first declarations of the records it sees, and has the fields its
own interface shows. -/
theorem createTopLevelContext_spec {imports : List String} {definitions : List (Definition Unit)}
    (hok : createTopLevelContext L inFile (.rhoModule imports definitions) = .ok k) :
    Declares (declarations L inFile imports definitions) .init k.returnGamma ∧
      k.libraries = loadOrder L inFile imports ∧
      ∀ uses headers, L.ri.get? inFile.nameWithoutExtension = some (.ok (.rhoInterface uses headers)) →
        Covers (recordsOf definitions) (recordsOf headers) := by
  obtain ⟨k₁, hrecords, hok⟩ := bind_eq_ok.mp hok
  obtain ⟨⟨interfaceImports, k₂⟩, hown, hfold⟩ := bind_eq_ok.mp hok
  obtain ⟨hloaded, hlibs⟩ := loadRecords_spec hrecords
  -- the own interface is checked against the definitions and declares no record of its own
  have hinterface : Loaded (recordsOf definitions) k₂ ∧ k₂.libraries = .empty ∧
      interfaceImports = ownUses L inFile ∧ ∀ uses headers,
        L.ri.get? inFile.nameWithoutExtension = some (.ok (.rhoInterface uses headers)) →
          Covers (recordsOf definitions) (recordsOf headers) := by
    unfold checkOwnInterface at hown
    cases hfile : L.ri.get? inFile.nameWithoutExtension with
    | none =>
      rw [hfile] at hown
      cases hown
      exact ⟨hloaded, hlibs, by rw [ownUses, hfile], nofun⟩
    | some file =>
      rw [hfile] at hown
      obtain ⟨i, hast, hown⟩ := bind_eq_ok.mp hown
      rw [getAst, hlibs, LinkedMap.get?_empty] at hast
      cases i with
      | etaInterface headers => cases hown
      | rhoInterface uses headers =>
        obtain ⟨k₃, hheaders, heq⟩ := bind_eq_ok.mp hown
        cases heq
        have hast : file = .ok (.rhoInterface interfaceImports headers) := hast
        have hall := foldlM_ok [] (I := fun done k =>
            Loaded (recordsOf definitions) k ∧ k.libraries = .empty ∧
              Covers (recordsOf definitions) (recordsOf done))
          (fun done header k k' hI hstep => by
            obtain ⟨hloaded, hlibs, hcovers⟩ := checkHeader_spec hI.1 hI.2.1 hstep
            refine ⟨hloaded, hlibs, ?_⟩
            rw [recordsOf_append]
            intro record hrecord
            rcases List.mem_append.mp hrecord with hmem | hmem
            · exact hI.2.2 record hmem
            · exact hcovers record hmem) hheaders ⟨hloaded, hlibs, nofun⟩
        refine ⟨hall.1, hall.2.1, by rw [ownUses, hfile, hast], ?_⟩
        intro uses' headers' heq
        rw [hast] at heq
        cases heq
        exact hall.2.2
  obtain ⟨hloaded₂, hlibs₂, rfl, hcovers⟩ := hinterface
  -- then the imports one after the other; `libraries` grows as `orderImport` says
  have hloads := foldlM_ok [] (I := fun done k => Loaded (recordsOf definitions) k ∧
      k.libraries = done.foldl (orderImport L inFile (imports ++ ownUses L inFile)) .empty)
    (fun done lib k k' hI hstep => by
      obtain ⟨hloaded, hlibs⟩ := loadImport_spec hI.1 hstep
      rw [List.foldl_append, ← hI.2]
      exact ⟨hloaded, hlibs⟩) hfold ⟨hloaded₂, hlibs₂⟩
  refine ⟨?_, hloads.2, hcovers⟩
  rw [declarations, loadOrder]
  exact hloads.2 ▸ hloads.1

/-! ## Offsets -/

/-- A field is constructed, read and written at an offset. The type checker gives a constructor's arguments
to the fields in their order. -/
structure AtOffset (Γ : Context) (name field : String) (offset : ℕ) : Prop where
  access : IRTranslator.fieldOffset (IRTranslator.records Γ) name field = some offset
  construct : ∃ type i offsets, recordAt Γ name = some type ∧ type.fields.place field = some i ∧
    IRTranslator.constructorOffsets (IRTranslator.records Γ) name = some offsets ∧
    offsets[i]? = some offset

/-- The offset of a field is its place in the first declaration. -/
theorem atOffset_iff {decls : List RhoRecord} {Γ : Context} (h : Declares decls .init Γ)
    (name field : String) (offset : ℕ) :
    AtOffset Γ name field offset ↔ ∃ i, placeIn decls name field = some i ∧ offset = 8 * i := by
  have hrecord : recordAt Γ name = (firstRecord decls name).map typeOf := by
    rw [h.first]
    rfl
  have hrecords : (IRTranslator.records Γ).get? name =
      ((firstRecord decls name).map typeOf).map IRTranslator.createRecordMap := by
    rw [IRTranslator.records, LinkedMap.get?_mapValues, get?_recordTypes h.topLevel, hrecord]
  have haccess : IRTranslator.fieldOffset (IRTranslator.records Γ) name field =
      (placeIn decls name field).map (8 * ·) := by
    rw [IRTranslator.fieldOffset, hrecords, placeIn]
    cases firstRecord decls name with
    | none => rfl
    | some d => simp only [Option.map_some, Option.bind_some, IRTranslator.get?_createRecordMap]; rfl
  constructor
  · rintro ⟨hoffset, -⟩
    rw [haccess] at hoffset
    obtain ⟨i, hi, rfl⟩ := Option.map_eq_some_iff.mp hoffset
    exact ⟨i, hi, rfl⟩
  · rintro ⟨i, hi, rfl⟩
    refine ⟨by rw [haccess, hi]; rfl, ?_⟩
    obtain ⟨d, hd, hplace⟩ := Option.bind_eq_some_iff.mp hi
    rw [hd] at hrecord hrecords
    refine ⟨typeOf d, i, _, hrecord, hplace, by rw [IRTranslator.constructorOffsets, hrecords]; rfl, ?_⟩
    have hlt : i < (fieldMap d).keys.length := by
      obtain ⟨hlt, -⟩ := List.getElem?_eq_some_iff.mp ((LinkedMap.place_eq_some _).mp hplace)
      exact hlt
    dsimp only
    rw [IRTranslator.entries_createRecordMap, List.length_zipIdx, List.getElem?_map,
      List.getElem?_range (show i < (typeOf d).fields.keys.length from hlt)]
    rfl

/-- Two contexts use the same offset for a field exactly when it has the same place in both first
declarations. -/
theorem sameOffset_iff {decls decls' : List RhoRecord} {Γ Γ' : Context}
    (h : Declares decls .init Γ) (h' : Declares decls' .init Γ') (name field : String) :
    (∀ offset, AtOffset Γ name field offset ↔ AtOffset Γ' name field offset) ↔
      placeIn decls name field = placeIn decls' name field := by
  constructor
  · intro hall
    refine Option.ext fun i => ?_
    have hi := hall (8 * i)
    rw [atOffset_iff h, atOffset_iff h'] at hi
    constructor
    · intro hplace
      obtain ⟨j, hj, heq⟩ := hi.mp ⟨i, hplace, rfl⟩
      obtain rfl : j = i := by omega
      exact hj
    · intro hplace
      obtain ⟨j, hj, heq⟩ := hi.mpr ⟨i, hplace, rfl⟩
      obtain rfl : j = i := by omega
      exact hj
  · intro heq offset
    rw [atOffset_iff h, atOffset_iff h', heq]

/-- A module and a client of its interface agree on the offsets of the interface's records exactly when
the first declaration the client sees has their fields at the places of the module's own definition; and
the order of the `use` clauses does not matter exactly when the first declarations under both orders have
the fields at the same places. -/
theorem layouts_agree_iff {module client : SourceFile} {imports imports' uses : List String}
    {definitions definitions' headers : List (Definition Unit)} {kM kC : Kompiler}
    (hM : createTopLevelContext L module (.rhoModule imports definitions) = .ok kM)
    (hI : L.ri.get? module.nameWithoutExtension = some (.ok (.rhoInterface uses headers)))
    (hC : createTopLevelContext L client (.rhoModule imports' definitions') = .ok kC) :
    ((∀ record ∈ recordsOf headers, ∀ field ∈ fieldNames record, ∃ offset,
        AtOffset kM.returnGamma record.name field offset ∧
        AtOffset kC.returnGamma record.name field offset) ↔
      ∀ record ∈ recordsOf headers, ∀ field ∈ fieldNames record,
        placeIn (declarations L client imports' definitions') record.name field =
          placeIn (recordsOf definitions) record.name field) ∧
    ∀ (imports'' : List String) (kC' : Kompiler), imports''.Perm imports' →
      createTopLevelContext L client (.rhoModule imports'' definitions') = .ok kC' →
      ((∀ name field offset, AtOffset kC.returnGamma name field offset ↔
          AtOffset kC'.returnGamma name field offset) ↔
        ∀ name field, placeIn (declarations L client imports' definitions') name field =
          placeIn (declarations L client imports'' definitions') name field) := by
  obtain ⟨hdeclM, -, hcovers⟩ := createTopLevelContext_spec hM
  obtain ⟨hdeclC, -, -⟩ := createTopLevelContext_spec hC
  have hcovers := hcovers uses headers hI
  -- the module's own definition comes first
  have hown : ∀ record ∈ recordsOf headers, ∀ field ∈ fieldNames record,
      placeIn (declarations L module imports definitions) record.name field =
        placeIn (recordsOf definitions) record.name field ∧
      (placeIn (recordsOf definitions) record.name field).isSome := by
    intro record hrecord field hfield
    obtain ⟨d, hd, hget⟩ := hcovers record hrecord field hfield
    rw [placeIn, declarations, firstRecord_append, hd, Option.some_or, placeIn, hd]
    exact ⟨rfl, by rw [Option.bind_some, LinkedMap.place_isSome]; exact hget⟩
  constructor
  · constructor
    · intro hall record hrecord field hfield
      obtain ⟨offset, hoffM, hoffC⟩ := hall record hrecord field hfield
      obtain ⟨i, hi, rfl⟩ := (atOffset_iff hdeclM _ _ _).mp hoffM
      obtain ⟨j, hj, heq⟩ := (atOffset_iff hdeclC _ _ _).mp hoffC
      obtain rfl : i = j := by omega
      rw [hj, ← hi, (hown record hrecord field hfield).1]
    · intro hall record hrecord field hfield
      obtain ⟨hplace, hsome⟩ := hown record hrecord field hfield
      obtain ⟨i, hi⟩ := Option.isSome_iff_exists.mp hsome
      refine ⟨8 * i, (atOffset_iff hdeclM _ _ _).mpr ⟨i, hplace.trans hi, rfl⟩,
        (atOffset_iff hdeclC _ _ _).mpr ⟨i, ?_, rfl⟩⟩
      rw [hall record hrecord field hfield, hi]
  · intro imports'' kC' _ hC'
    obtain ⟨hdeclC', -, -⟩ := createTopLevelContext_spec hC'
    constructor
    · intro hall name field
      exact (sameOffset_iff hdeclC hdeclC' name field).mp (hall name field)
    · intro hall name field
      exact (sameOffset_iff hdeclC hdeclC' name field).mpr (hall name field)

/-! ## A record with two fields -/

/-- The record `r` with some fields of type `int`. -/
def recordR (fields : List String) : RhoRecord := ⟨"r", [⟨fields, .int⟩]⟩

/-- The interface `m.ri`, which shows some fields of `r`. -/
def interfaceM (fields : List String) : Interface := .rhoInterface [] [.rhoRecord (recordR fields)]

/-- The interface of the module `m`, with these fields in its record. -/
def libraryM (fields : List String) : Library where
  eti := .empty
  ri := LinkedMap.empty.insert "m" (.ok (interfaceM fields))

/-- The source of the module itself. -/
def fileM : SourceFile := ⟨"m", "rh"⟩

/-- The source of a module that uses it. -/
def fileC : SourceFile := ⟨"c", "rh"⟩

/-- The module, with its record. -/
def moduleM : Program Unit := .rhoModule [] [.rhoRecord (recordR ["a", "b"])]

/-- The module that uses it. -/
def clientC : Program Unit := .rhoModule ["m"] []

/-- The state of a client after loading `m.ri`. -/
def loadedM (fields : List String) : Kompiler where
  libraries := LinkedMap.empty.insert "m" (interfaceM fields)
  moduleRecords := .empty
  returnGamma := Context.init.bind "r" (.recordType (typeOf (recordR fields)))

/-- A client that loads `m.ri`, and once more as a dependency, is accepted. -/
theorem clientC_accepted (fields : List String)
    (hload : load fileC "m" (.ok (interfaceM fields)) init =
      .ok (interfaceM fields, loadedM fields))
    (hfiles : loadFiles (libraryM fields) fileC "m" (loadedM fields) = .ok ([], loadedM fields)) :
    createTopLevelContext (libraryM fields) fileC clientC = .ok (loadedM fields) := by
  have hdeps : loadRemaining (libraryM fields) fileC ["m"] ["c.ri"] (loadedM fields) =
      .ok (loadedM fields) := by
    rw [loadRemaining, dif_neg (by decide), dif_pos (.inr rfl), hfiles]
    show loadRemaining (libraryM fields) fileC [] _ (loadedM fields) = _
    rw [loadRemaining]
    rfl
  have hstart : createTopLevelContext (libraryM fields) fileC clientC =
      loadImport (libraryM fields) fileC ["m"] init "m" >>= pure := rfl
  rw [hstart]
  exact bind_eq_ok.mpr ⟨_, bind_eq_ok.mpr ⟨_, hload, hdeps⟩, rfl⟩

/-- An interface that shows the first field only leaves the offsets as they are. -/
theorem layouts_agree_prefix :
    ∃ kM kC, createTopLevelContext (libraryM ["a"]) fileM moduleM = .ok kM ∧
      createTopLevelContext (libraryM ["a"]) fileC clientC = .ok kC ∧
      ∃ offset, AtOffset kM.returnGamma "r" "a" offset ∧ AtOffset kC.returnGamma "r" "a" offset := by
  obtain ⟨kM, hM⟩ : ∃ kM, createTopLevelContext (libraryM ["a"]) fileM moduleM = .ok kM := ⟨_, rfl⟩
  have hC := clientC_accepted ["a"] rfl rfl
  have horder := (createTopLevelContext_spec hC).2.1
  have hiff := (layouts_agree_iff hM rfl hC).1
  refine ⟨kM, _, hM, hC, hiff.mpr ?_ (recordR ["a"]) (List.mem_singleton_self _) "a"
    (List.mem_singleton_self _)⟩
  intro record hrecord field hfield
  obtain rfl : record = recordR ["a"] := List.mem_singleton.mp hrecord
  obtain rfl : field = "a" := List.mem_singleton.mp hfield
  rw [declarations, ← horder]
  rfl

/-- An interface that shows the fields in another order gives them other offsets. -/
theorem layouts_disagree_swapped :
    ∃ kM kC, createTopLevelContext (libraryM ["b", "a"]) fileM moduleM = .ok kM ∧
      createTopLevelContext (libraryM ["b", "a"]) fileC clientC = .ok kC ∧
      AtOffset kM.returnGamma "r" "a" 0 ∧ AtOffset kC.returnGamma "r" "a" 8 ∧
      ¬ AtOffset kC.returnGamma "r" "a" 0 := by
  have hC := clientC_accepted ["b", "a"] rfl rfl
  refine ⟨_, _, rfl, hC, ⟨rfl, _, _, _, rfl, rfl, rfl, rfl⟩, ⟨rfl, _, _, _, rfl, rfl, rfl, rfl⟩, ?_⟩
  rintro ⟨haccess, -⟩
  exact absurd haccess (by decide)

end Jaek.Kompiler
