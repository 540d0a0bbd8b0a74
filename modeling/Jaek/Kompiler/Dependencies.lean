import Jaek.Kompiler.Layout

/-!
# Which interfaces are loaded

`loadRhoInterfaceDependencies` follows the use clauses of interfaces from a list of imports. Of a library
that exists as `.eti` and as `.ri` it means to load both; but trees are kept by the name of the library, so
that it takes the tree of the `.eti` twice. The `.ri`, and what only its use clauses lead to, is not
loaded.

`Bindings` says what some headers have made of a context. A run of the loop loads a list of libraries that
is closed under use clauses and has the bindings of their headers (`loadRemaining_run`).
-/

namespace Jaek.Kompiler

open AST Except

/-! ## What a header binds -/

/-- The name a header binds and its type, in a context that does not have the name. -/
def binding : Definition Unit → Option (String × ContextType)
  | .method header =>
    some (header.id, .funType ⟨header.args.map fun decl => translateType decl.type,
      header.returnTypes.map translateType, true⟩)
  | .rhoRecord header => some (header.name, .recordType (typeOf header))
  | .globalDecl _ => none

/-- A binding that is there serves for a header of a type: it is the same function, or a record with the
fields of the header. -/
def Serves (existing : ContextType) : ContextType → Prop
  | .funType type => existing.equalsFun type
  | .recordType type => ∃ type', existing = .recordType type' ∧
    ∀ x t, type.fields.get? x = some t → ∃ t', type'.fields.get? x = some t' ∧ t.equals t'
  | _ => False

/-- The context binds a header. -/
def Binds (Γ : Context) (header : Definition Unit) : Prop :=
  ∃ x t, binding header = some (x, t) ∧ ∃ existing, Γ.lookup x = some existing ∧ Serves existing t

/-- The second header would be bound where only the first one has been. -/
def Alike (header header' : Definition Unit) : Prop :=
  ∃ x t t', binding header = some (x, t) ∧ binding header' = some (x, t') ∧ Serves t t'

variable {L : Library} {inFile : SourceFile} {Γ Γ' : Context} {header header' : Definition Unit}
  {x : String} {t t' : ContextType}

/-- A field of the map is declared in the record, with its type. -/
theorem fieldMap_source (record : RhoRecord) {field : String} {type : OrdinaryType}
    (h : (fieldMap record).get? field = some type) :
    ∃ decl ∈ record.fields, field ∈ decl.ids ∧ type = translateType decl.type := by
  have hfold : ∀ (done : List RawVarDeclList) (m : LinkedMap String OrdinaryType),
      (∀ field type, m.get? field = some type →
        ∃ decl ∈ record.fields, field ∈ decl.ids ∧ type = translateType decl.type) →
      done ⊆ record.fields →
      ∀ field type, (done.foldl (fun fieldMap decl => decl.ids.foldl (fun fieldMap id =>
        fieldMap.insert id (translateType decl.type)) fieldMap) m).get? field = some type →
        ∃ decl ∈ record.fields, field ∈ decl.ids ∧ type = translateType decl.type := by
    intro done
    induction done with
    | nil => intro m hm _; exact hm
    | cons decl done ih =>
      intro m hm hsub
      rw [List.cons_subset] at hsub
      refine ih _ ?_ hsub.2
      have hids : ∀ (ids : List String) (m : LinkedMap String OrdinaryType), ids ⊆ decl.ids →
          (∀ field type, m.get? field = some type →
            ∃ decl ∈ record.fields, field ∈ decl.ids ∧ type = translateType decl.type) →
          ∀ field type, (ids.foldl (fun fieldMap id =>
            fieldMap.insert id (translateType decl.type)) m).get? field = some type →
            ∃ decl ∈ record.fields, field ∈ decl.ids ∧ type = translateType decl.type := by
        intro ids
        induction ids with
        | nil => intro m _ hm; exact hm
        | cons id ids ih =>
          intro m hids hm
          rw [List.cons_subset] at hids
          refine ih _ hids.2 ?_
          intro field type hget
          rw [LinkedMap.get?_insert] at hget
          split_ifs at hget with heq
          · cases hget
            exact ⟨decl, hsub.1, heq ▸ hids.1, rfl⟩
          · exact hm field type hget
      exact hids decl.ids m (List.Subset.refl _) hm
  exact hfold record.fields .empty (by simp) (List.Subset.refl _) field type h

/-- Field types are declared types. -/
theorem declared_fieldMap (record : RhoRecord) {field : String} {type : OrdinaryType}
    (h : (fieldMap record).get? field = some type) : type.Declared := by
  obtain ⟨decl, -, -, rfl⟩ := fieldMap_source record h
  exact translateType_declared decl.type

/-- A declared type equals itself. -/
theorem equals_refl {type : OrdinaryType} (h : type.Declared) : type.equals type :=
  (OrdinaryType.equals_iff h h).mpr rfl

/-- Lists of declared types that are equal for the type checker are the same. -/
theorem equalTypes_iff {ts us : List OrdinaryType} (hts : ∀ t ∈ ts, t.Declared)
    (hus : ∀ u ∈ us, u.Declared) : equalTypes ts us ↔ ts = us := by
  induction ts generalizing us with
  | nil => cases us <;> simp [equalTypes]
  | cons t ts ih =>
    cases us with
    | nil => simp [equalTypes]
    | cons u us =>
      rw [List.forall_mem_cons] at hts hus
      have htail := ih hts.2 hus.2
      simp only [equalTypes, Bool.and_eq_true, decide_eq_true_eq] at htail ⊢
      simp only [List.length_cons, Nat.add_right_cancel_iff, List.zip_cons_cons, List.all_cons,
        Bool.and_eq_true, OrdinaryType.equals_iff hts.1 hus.1, List.cons.injEq]
      rw [← htail]
      tauto

/-- What a header is bound to serves for it. -/
theorem serves_refl (h : binding header = some (x, t)) : Serves t t := by
  cases header with
  | method m =>
    cases h
    simp [Serves, ContextType.equalsFun, equalTypes_iff, translateType_declared]
  | rhoRecord record =>
    cases h
    refine ⟨typeOf record, rfl, ?_⟩
    intro field type hget
    exact ⟨type, hget, equals_refl (declared_fieldMap record hget)⟩
  | globalDecl g => cases h

/-- What serves for a header serves for a header that is like it. -/
theorem serves_trans {x' : String} {existing : ContextType} (h : binding header = some (x, t))
    (h' : binding header' = some (x', t')) (ht : Serves existing t) (ht' : Serves t t') :
    Serves existing t' := by
  cases header' with
  | method m' =>
    cases h'
    cases header with
    | method m =>
      cases h
      have hsame := ht'
      simp only [Serves, ContextType.equalsFun, Bool.and_eq_true] at hsame
      have hdomain := (equalTypes_iff (by simp [translateType_declared])
        (by simp [translateType_declared])).mp hsame.1
      have hcodomain := (equalTypes_iff (by simp [translateType_declared])
        (by simp [translateType_declared])).mp hsame.2
      simp only [Serves, ContextType.equalsFun] at ht ⊢
      rwa [← hdomain, ← hcodomain]
    | rhoRecord record =>
      cases h
      cases ht'
    | globalDecl g => cases h
  | rhoRecord record' =>
    cases h'
    obtain ⟨type, rfl, hfields'⟩ := ht'
    obtain ⟨type', rfl, hfields⟩ := ht
    refine ⟨type', rfl, ?_⟩
    intro field u' hu'
    obtain ⟨u, hu, heq⟩ := hfields' field u' hu'
    have hdeclared : u.Declared := by
      cases header with
      | rhoRecord record =>
        cases h
        exact declared_fieldMap record hu
      | _ => cases h
    rw [(OrdinaryType.equals_iff (declared_fieldMap record' hu') hdeclared).mp heq]
    exact hfields field u hu
  | globalDecl g => cases h'

/-! ## What the steps bind -/

/-- What some headers have made of a context: what was bound is kept, the headers are bound, and there is
nothing else. -/
structure Bindings (headers : List (Definition Unit)) (Γ Γ' : Context) : Prop where
  topLevel : TopLevel Γ'
  keeps : ∀ x t, Γ.lookup x = some t → Γ'.lookup x = some t
  binds : ∀ header ∈ headers, ∀ x t, binding header = some (x, t) →
    ∃ existing, Γ'.lookup x = some existing ∧ Serves existing t
  source : ∀ x t, Γ'.lookup x = some t →
    Γ.lookup x = some t ∨ ∃ header ∈ headers, binding header = some (x, t)

/-- Nothing is bound. -/
theorem Bindings.refl (h : TopLevel Γ) : Bindings [] Γ Γ where
  topLevel := h
  keeps _ _ ht := ht
  binds := nofun
  source _ _ ht := .inl ht

/-- The headers of two steps in a row. -/
theorem Bindings.trans {Γ₁ Γ₂ Γ₃ : Context} {xs ys : List (Definition Unit)} (h : Bindings xs Γ₁ Γ₂)
    (h' : Bindings ys Γ₂ Γ₃) : Bindings (xs ++ ys) Γ₁ Γ₃ where
  topLevel := h'.topLevel
  keeps x t ht := h'.keeps x t (h.keeps x t ht)
  binds := by
    intro header hheader x t hbinding
    rcases List.mem_append.mp hheader with hmem | hmem
    · obtain ⟨existing, hlookup, hserves⟩ := h.binds header hmem x t hbinding
      exact ⟨existing, h'.keeps x existing hlookup, hserves⟩
    · exact h'.binds header hmem x t hbinding
  source := by
    intro x t ht
    rcases h'.source x t ht with ht | ⟨header, hheader, hbinding⟩
    · rcases h.source x t ht with ht | ⟨header, hheader, hbinding⟩
      · exact .inl ht
      · exact .inr ⟨header, List.mem_append_left _ hheader, hbinding⟩
    · exact .inr ⟨header, List.mem_append_right _ hheader, hbinding⟩

/-- Headers that are bound a second time change nothing. -/
theorem Bindings.absorb {xs ys : List (Definition Unit)} (h : Bindings (xs ++ ys) Γ Γ')
    (hys : ys ⊆ xs) : Bindings xs Γ Γ' where
  topLevel := h.topLevel
  keeps := h.keeps
  binds header hheader := h.binds header (List.mem_append_left _ hheader)
  source := by
    intro x t ht
    rcases h.source x t ht with ht | ⟨header, hheader, hbinding⟩
    · exact .inl ht
    · exact .inr ⟨header, (List.mem_append.mp hheader).elim id fun hmem => hys hmem, hbinding⟩

/-- A name that is new is bound to the type of the header. -/
theorem bindings_bind (h : TopLevel Γ) (hbinding : binding header = some (x, t))
    (hnone : Γ.lookup x = none) (htop : TopLevel (Γ.bind x t)) :
    Bindings [header] Γ (Γ.bind x t) where
  topLevel := htop
  keeps := by
    intro y u hu
    rw [lookup_bind h, if_neg, hu]
    rintro rfl
    rw [hnone] at hu
    cases hu
  binds := by
    intro header' hmem y u hbinding'
    obtain rfl : header' = header := List.mem_singleton.mp hmem
    rw [hbinding] at hbinding'
    cases hbinding'
    exact ⟨t, by rw [lookup_bind h, if_pos rfl], serves_refl hbinding⟩
  source := by
    intro y u hu
    rw [lookup_bind h] at hu
    split_ifs at hu with heq
    · cases hu
      exact .inr ⟨header, List.mem_singleton_self header, by rw [heq]; exact hbinding⟩
    · exact .inl hu

/-- A header whose name is bound binds nothing. -/
theorem bindings_existing {existing : ContextType} (h : TopLevel Γ)
    (hbinding : binding header = some (x, t)) (hlookup : Γ.lookup x = some existing)
    (hserves : Serves existing t) : Bindings [header] Γ Γ where
  topLevel := h
  keeps _ _ ht := ht
  binds := by
    intro header' hmem y u hbinding'
    obtain rfl : header' = header := List.mem_singleton.mp hmem
    rw [hbinding] at hbinding'
    cases hbinding'
    exact ⟨existing, hlookup, hserves⟩
  source _ _ ht := .inl ht

/-- The header of a method is bound, or checked against what is bound. -/
theorem bindInterfaceMethod_bindings {m : Method Unit} (h : TopLevel Γ)
    (hok : bindInterfaceMethod m Γ = .ok Γ') : Bindings [.method m] Γ Γ' := by
  have htop := (bindInterfaceMethod_declares h hok).topLevel
  unfold bindInterfaceMethod at hok
  dsimp only at hok
  split at hok
  · rename_i existing hlookup
    split_ifs at hok with hequals
    cases hok
    exact bindings_existing h rfl hlookup hequals
  · rename_i hnone
    cases hok
    exact bindings_bind h rfl hnone htop

/-- Both checks of a record that is bound look for the fields of the header with equal types. -/
theorem serves_of_check {moduleRecords : LinkedMap String RecordType} {record : RhoRecord}
    {existing : RecordType}
    (h : (if (moduleRecords.get? record.name).isSome then checkRecordSubtyping else checkRecordExact)
      record existing = .ok ⟨⟩) : Serves (.recordType existing) (.recordType (typeOf record)) := by
  refine ⟨existing, rfl, ?_⟩
  intro field type hget
  obtain ⟨decl, hdecl, hid, rfl⟩ := fieldMap_source record hget
  split_ifs at h
  · have hfield := forM_eq_ok.mp (forM_eq_ok.mp h decl hdecl) field hid
    cases hexisting : existing.fields.get? field with
    | none =>
      rw [hexisting] at hfield
      cases hfield
    | some type' =>
      rw [hexisting] at hfield
      dsimp only at hfield
      split_ifs at hfield with hequals
      exact ⟨type', rfl, hequals⟩
  · obtain ⟨⟨⟩, hfields, -⟩ := bind_eq_ok.mp h
    have hfield := forM_eq_ok.mp (forM_eq_ok.mp hfields decl hdecl) field hid
    cases hexisting : existing.fields.get? field with
    | none =>
      rw [hexisting] at hfield
      cases hfield
    | some type' =>
      rw [hexisting] at hfield
      dsimp only at hfield
      split_ifs at hfield with hequals
      exact ⟨type', rfl, hequals⟩

/-- So is the header of a record. -/
theorem bindInterfaceRecord_bindings {moduleRecords : LinkedMap String RecordType} {record : RhoRecord}
    (h : TopLevel Γ) (hok : bindInterfaceRecord moduleRecords record Γ = .ok Γ') :
    Bindings [.rhoRecord record] Γ Γ' := by
  have htop := (bindInterfaceRecord_declares h hok).topLevel
  unfold bindInterfaceRecord at hok
  split at hok
  · rename_i existing hlookup
    obtain ⟨⟨⟩, hcheck, heq⟩ := bind_eq_ok.mp hok
    cases heq
    exact bindings_existing h rfl hlookup (serves_of_check hcheck)
  · cases hok
  · rename_i hnone
    cases hok
    exact bindings_bind h rfl hnone htop

/-- A header of either kind. -/
theorem bindInterfaceDefinition_bindings {moduleRecords : LinkedMap String RecordType}
    (h : TopLevel Γ) (hok : bindInterfaceDefinition moduleRecords Γ header = .ok Γ') :
    Bindings [header] Γ Γ' := by
  cases header with
  | method m => exact bindInterfaceMethod_bindings h hok
  | rhoRecord record => exact bindInterfaceRecord_bindings h hok
  | globalDecl g =>
    cases hok
    exact ⟨h, fun _ _ ht => ht, by simp [binding], fun _ _ ht => .inl ht⟩

/-- The headers of an interface. -/
theorem bindInterfaceDefinitions_bindings {i : Interface} {k k' : Kompiler}
    (h : TopLevel k.returnGamma) (hok : k.bindInterfaceDefinitions i = .ok k') :
    Bindings i.headers k.returnGamma k'.returnGamma := by
  obtain ⟨Γ, hfold, heq⟩ := bind_eq_ok.mp hok
  cases heq
  exact foldlM_ok [] (I := fun done Γ => Bindings done k.returnGamma Γ)
    (fun done header Γ Γ' hI hstep => hI.trans (bindInterfaceDefinition_bindings hI.topLevel hstep))
    hfold (.refl h)

/-! ## The trees of the libraries -/

/-- The file whose tree stands for a library: the `.eti`, if there is one. -/
def readFile (L : Library) (lib : String) : Option (Except String Interface) :=
  (L.eti.get? lib).or (L.ri.get? lib)

/-- The headers of the tree. -/
def headersOf (L : Library) (lib : String) : List (Definition Unit) :=
  match readFile L lib with
  | some (.ok i) => i.headers
  | _ => []

/-- The use clauses of the tree. -/
def usesIn (L : Library) (lib : String) : List String :=
  match readFile L lib with
  | some (.ok (.rhoInterface uses _)) => uses
  | _ => []

/-- The grammar makes a tree of Eta of each `.eti`. -/
def Parsed (L : Library) : Prop :=
  ∀ lib i, L.eti.get? lib = some (.ok i) → ∃ headers, i = .etaInterface headers

/-- The compiler between two loads: the context is that of a file, and the trees kept are those of the
files. -/
structure Ready (L : Library) (k : Kompiler) : Prop where
  topLevel : TopLevel k.returnGamma
  cached : ∀ lib i, k.libraries.get? lib = some i → readFile L lib = some (.ok i)

/-- At the start nothing is loaded. -/
theorem ready_init (L : Library) : Ready L init where
  topLevel := topLevel_init
  cached := nofun

variable {k k' : Kompiler} {lib : String} {i : Interface} {file : Except String Interface}

/-- Loading an interface binds its headers and puts it into the cache. -/
theorem checkAndLoadInterface_bindings (h : Ready L k) (hfile : readFile L lib = some (.ok i))
    (hok : k.checkAndLoadInterface inFile i lib = .ok k') :
    Bindings i.headers k.returnGamma k'.returnGamma ∧ Ready L k' ∧
      k'.libraries.get? lib = some i := by
  obtain ⟨-, hlibs⟩ := checkAndLoadInterface_declares h.topLevel hok
  have hbindings : Bindings i.headers k.returnGamma k'.returnGamma := by
    unfold checkAndLoadInterface at hok
    split at hok
    · split_ifs at hok
      exact bindInterfaceDefinitions_bindings
        (k := { k with libraries := k.libraries.insert lib _ }) h.topLevel hok
    · exact bindInterfaceDefinitions_bindings
        (k := { k with libraries := k.libraries.insert lib _ }) h.topLevel hok
  refine ⟨hbindings, ⟨hbindings.topLevel, ?_⟩, by rw [hlibs, LinkedMap.get?_insert_self]⟩
  intro lib' i' hget
  rw [hlibs, LinkedMap.get?_insert] at hget
  split_ifs at hget with heq
  · cases hget
    rw [heq, hfile]
  · exact h.cached lib' i' hget

/-- A load takes the tree that is kept, or that of the file. -/
theorem load_bindings (h : Ready L k)
    (hfile : k.libraries.get? lib = none → readFile L lib = some file)
    (hok : k.load inFile lib file = .ok (i, k')) :
    readFile L lib = some (.ok i) ∧ Bindings i.headers k.returnGamma k'.returnGamma ∧
      Ready L k' ∧ k'.libraries.get? lib = some i := by
  obtain ⟨i', hast, hok⟩ := bind_eq_ok.mp hok
  obtain ⟨k₁, hload, heq⟩ := bind_eq_ok.mp hok
  cases heq
  have hread : readFile L lib = some (.ok i) := by
    unfold getAst at hast
    split at hast
    · rename_i hget
      cases hast
      exact h.cached lib i hget
    · rename_i hget
      rw [hfile hget, hast]
  exact ⟨hread, checkAndLoadInterface_bindings h hread hload⟩

/-- The `.eti` file of a library is read when there is one, unless the library is in the cache. -/
theorem loadEti_bindings (h : Ready L k) (hok : loadEti L inFile lib k = .ok k') :
    Ready L k' ∧ match L.eti.get? lib with
      | some _ => Bindings (headersOf L lib) k.returnGamma k'.returnGamma ∧
        (k'.libraries.get? lib).isSome
      | none => k' = k := by
  unfold loadEti at hok
  cases heti : L.eti.get? lib with
  | some etapath =>
    rw [heti] at hok
    obtain ⟨⟨i, k₁⟩, hload, heq⟩ := bind_eq_ok.mp hok
    cases heq
    obtain ⟨hread, hbindings, hready, hget⟩ :=
      load_bindings h (fun _ => by rw [readFile, heti, Option.some_or]) hload
    refine ⟨hready, ?_, by rw [hget]; rfl⟩
    rw [headersOf, hread]
    exact hbindings
  | none =>
    rw [heti] at hok
    cases hok
    exact ⟨h, rfl⟩

/-- So is the `.ri` file, and its uses are what is loaded next. -/
theorem loadRi_bindings {uses : List String} (h : Ready L k)
    (hfile : k.libraries.get? lib = none → L.eti.get? lib = none)
    (hok : loadRi L inFile lib k = .ok (uses, k')) :
    Ready L k' ∧ match L.ri.get? lib with
      | some _ => Bindings (headersOf L lib) k.returnGamma k'.returnGamma ∧ uses = usesIn L lib
      | none => k' = k ∧ uses = [] := by
  unfold loadRi at hok
  cases hri : L.ri.get? lib with
  | some rhopath =>
    rw [hri] at hok
    obtain ⟨⟨i, k₁⟩, hload, hok⟩ := bind_eq_ok.mp hok
    obtain ⟨hread, hbindings, hready, -⟩ :=
      load_bindings h (fun hnone => by rw [readFile, hfile hnone, hri, Option.none_or]) hload
    cases i with
    | rhoInterface uses' headers =>
      cases hok
      exact ⟨hready, by rw [headersOf, hread]; exact hbindings, by rw [usesIn, hread]⟩
    | etaInterface headers =>
      cases hok
      exact ⟨hready, by rw [headersOf, hread]; exact hbindings, by rw [usesIn, hread]⟩
  | none =>
    rw [hri] at hok
    cases hok
    exact ⟨h, rfl, rfl⟩

/-- A library that has an `.eti` gives no use clauses. -/
theorem usesIn_eq_nil {etapath : Except String Interface} (hL : Parsed L)
    (heti : L.eti.get? lib = some etapath) : usesIn L lib = [] := by
  have hread : readFile L lib = some etapath := by rw [readFile, heti, Option.some_or]
  cases etapath with
  | error e => rw [usesIn, hread]
  | ok i =>
    obtain ⟨headers, rfl⟩ := hL lib i heti
    rw [usesIn, hread]

/-- Loading the files of a library binds the headers of its tree, and gives its use clauses. -/
theorem loadFiles_bindings {uses : List String} (hL : Parsed L) (h : Ready L k)
    (hok : loadFiles L inFile lib k = .ok (uses, k')) :
    Bindings (headersOf L lib) k.returnGamma k'.returnGamma ∧ Ready L k' ∧ uses = usesIn L lib := by
  obtain ⟨k₁, heti, hri⟩ := bind_eq_ok.mp hok
  obtain ⟨hready₁, hetiSpec⟩ := loadEti_bindings h heti
  have hcached : k₁.libraries.get? lib = none → L.eti.get? lib = none := by
    intro hnone
    cases hfile : L.eti.get? lib with
    | some etapath =>
      rw [hfile] at hetiSpec
      rw [hnone] at hetiSpec
      cases hetiSpec.2
    | none => rfl
  obtain ⟨hready', hriSpec⟩ := loadRi_bindings hready₁ hcached hri
  cases hfile : L.eti.get? lib with
  | some etapath =>
    rw [hfile] at hetiSpec
    have hnil := usesIn_eq_nil hL hfile
    cases hfile' : L.ri.get? lib with
    | some rhopath =>
      -- The tree of the `.eti` is bound twice.
      rw [hfile'] at hriSpec
      exact ⟨(hetiSpec.1.trans hriSpec.1).absorb (List.Subset.refl _), hready', hriSpec.2⟩
    | none =>
      rw [hfile'] at hriSpec
      obtain ⟨rfl, rfl⟩ := hriSpec
      exact ⟨hetiSpec.1, hready', hnil.symm⟩
  | none =>
    rw [hfile] at hetiSpec
    subst hetiSpec
    cases hfile' : L.ri.get? lib with
    | some rhopath =>
      rw [hfile'] at hriSpec
      exact ⟨hriSpec.1, hready', hriSpec.2⟩
    | none =>
      rw [hfile'] at hriSpec
      obtain ⟨rfl, rfl⟩ := hriSpec
      have hread : readFile L lib = none := by rw [readFile, hfile, hfile', Option.none_or]
      exact ⟨by rw [headersOf, hread]; exact .refl h.topLevel, hready', by rw [usesIn, hread]⟩

/-! ## The loop -/

/-- What the loop passes over. -/
def Seen (seenImports : List String) (lib : String) : Prop :=
  lib ++ ".eti" ∈ seenImports ∨ lib ++ ".ri" ∈ seenImports

/-- File names of the two kinds differ as their libraries or their kinds do. -/
theorem append_ext_inj {lib lib' ext ext' : String} (hext : ext ∈ [".eti", ".ri"])
    (hext' : ext' ∈ [".eti", ".ri"]) : lib ++ ext = lib' ++ ext' ↔ lib = lib' ∧ ext = ext' := by
  constructor
  · intro h
    have hlist := congrArg (fun s : String => s.toList.reverse) h
    simp only [List.mem_cons, List.not_mem_nil, or_false] at hext hext'
    rcases hext with rfl | rfl <;> rcases hext' with rfl | rfl <;> simp at hlist <;>
      simp [String.toList_inj.mp hlist]
  · rintro ⟨rfl, rfl⟩
    rfl

/-- At the start only the module's own interface counts as seen. -/
theorem seen_own (own lib : String) : Seen [own ++ ".ri"] lib ↔ lib = own := by
  simp only [Seen, List.mem_singleton]
  rw [append_ext_inj (by simp) (by simp), append_ext_inj (by simp) (by simp)]
  simp

/-- After a library with a file is loaded it is seen as well. -/
theorem seen_step {seenImports : List String}
    (hfile : (L.eti.get? lib).isSome ∨ (L.ri.get? lib).isSome) (lib' : String) :
    Seen (seenImports ++ (L.eti.get? lib).toList.map (fun _ => lib ++ ".eti") ++
      (L.ri.get? lib).toList.map (fun _ => lib ++ ".ri")) lib' ↔ Seen seenImports lib' ∨ lib' = lib := by
  have hmem : ∀ (o : Option (Except String Interface)) (s name : String),
      s ∈ o.toList.map (fun _ => name) ↔ o.isSome ∧ s = name := by
    intro o s name
    cases o <;> simp
  simp only [Seen, List.append_assoc, List.mem_append, hmem]
  rw [append_ext_inj (by simp) (by simp), append_ext_inj (by simp) (by simp),
    append_ext_inj (by simp) (by simp), append_ext_inj (by simp) (by simp)]
  simp only [and_true, String.reduceEq, and_false, or_false, false_or]
  constructor
  · rintro ((h | h) | h | h)
    · exact .inl (.inl h)
    · exact .inr h.2
    · exact .inl (.inr h)
    · exact .inr h.2
  · rintro ((h | h) | rfl)
    · exact .inl (.inl h)
    · exact .inr (.inl h)
    · exact hfile.imp (fun h => .inr ⟨h, rfl⟩) fun h => .inr ⟨h, rfl⟩

/-- A library is done with when it was seen before, is loaded, or has no file. -/
def Handled (L : Library) (seenImports done : List String) (lib : String) : Prop :=
  Seen seenImports lib ∨ lib ∈ done ∨ readFile L lib = none

/-- What a run of the loop loads: all it is asked for, and what the trees loaded use; nothing that was
seen, and nothing else. -/
structure Closed (L : Library) (seenImports remainingUses done : List String) : Prop where
  remaining : ∀ lib ∈ remainingUses, Handled L seenImports done lib
  uses : ∀ lib ∈ done, ∀ lib' ∈ usesIn L lib, Handled L seenImports done lib'
  origin : ∀ P : String → Prop, (∀ lib ∈ remainingUses, P lib) →
    (∀ lib, P lib → ¬ Seen seenImports lib → ∀ lib' ∈ usesIn L lib, P lib') →
    ∀ lib ∈ done, P lib ∧ ¬ Seen seenImports lib

/-- A library without files. -/
theorem readFile_eq_none : readFile L lib = none ↔
    ¬ ((L.eti.get? lib).isSome ∨ (L.ri.get? lib).isSome) := by
  rw [readFile, Option.or_eq_none_iff]
  simp

/-- The step: the library in front is loaded, and then what the rest of the loop loads. -/
theorem Closed.step {seenImports remainingUses done : List String} (hseen : ¬ Seen seenImports lib)
    (hfile : (L.eti.get? lib).isSome ∨ (L.ri.get? lib).isSome)
    (h : Closed L (seenImports ++ (L.eti.get? lib).toList.map (fun _ => lib ++ ".eti") ++
      (L.ri.get? lib).toList.map (fun _ => lib ++ ".ri")) (remainingUses ++ usesIn L lib) done) :
    Closed L seenImports (lib :: remainingUses) (lib :: done) := by
  have hhandled : ∀ lib', Handled L (seenImports ++
      (L.eti.get? lib).toList.map (fun _ => lib ++ ".eti") ++
      (L.ri.get? lib).toList.map (fun _ => lib ++ ".ri")) done lib' →
      Handled L seenImports (lib :: done) lib' := by
    rintro lib' (hs | hd | hn)
    · rcases (seen_step hfile lib').mp hs with hs | rfl
      · exact .inl hs
      · exact .inr (.inl List.mem_cons_self)
    · exact .inr (.inl (List.mem_cons_of_mem _ hd))
    · exact .inr (.inr hn)
  constructor
  · intro lib' hlib'
    rcases List.mem_cons.mp hlib' with rfl | hlib'
    · exact .inr (.inl List.mem_cons_self)
    · exact hhandled lib' (h.remaining lib' (List.mem_append_left _ hlib'))
  · intro lib₁ hlib₁ lib' hlib'
    rcases List.mem_cons.mp hlib₁ with rfl | hlib₁
    · exact hhandled lib' (h.remaining lib' (List.mem_append_right _ hlib'))
    · exact hhandled lib' (h.uses lib₁ hlib₁ lib' hlib')
  · intro P hP hstep lib₁ hlib₁
    rw [List.forall_mem_cons] at hP
    rcases List.mem_cons.mp hlib₁ with rfl | hlib₁
    · exact ⟨hP.1, hseen⟩
    · have hall := h.origin P
        (fun lib' hlib' => (List.mem_append.mp hlib').elim (hP.2 lib') (hstep lib hP.1 hseen lib'))
        (fun lib₂ h₂ hs lib' hlib' =>
          hstep lib₂ h₂ (fun hs' => hs ((seen_step hfile lib₂).mpr (.inl hs'))) lib' hlib') lib₁ hlib₁
      exact ⟨hall.1, fun hs => hall.2 ((seen_step hfile lib₁).mpr (.inl hs))⟩

/-- A library that is passed over needs nothing. -/
theorem Closed.skip {seenImports remainingUses done : List String}
    (hskip : Handled L seenImports done lib) (h : Closed L seenImports remainingUses done) :
    Closed L seenImports (lib :: remainingUses) done where
  remaining := List.forall_mem_cons.mpr ⟨hskip, h.remaining⟩
  uses := h.uses
  origin P hP hstep := h.origin P (List.forall_mem_cons.mp hP).2 hstep

/-- The run: the loop binds the headers of a closed list of libraries. -/
theorem loadRemaining_run {remainingUses seenImports : List String} (hL : Parsed L) (h : Ready L k)
    (hok : loadRemaining L inFile remainingUses seenImports k = .ok k') :
    Ready L k' ∧ ∃ done, Closed L seenImports remainingUses done ∧
      Bindings (done.flatMap (headersOf L)) k.returnGamma k'.returnGamma := by
  fun_induction loadRemaining L inFile remainingUses seenImports k with
  | case1 seenImports k =>
    cases hok
    exact ⟨h, [], ⟨by simp, by simp, by simp⟩, .refl h.topLevel⟩
  | case2 seenImports k lib remainingUses hseen ih =>
    obtain ⟨hready, done, hclosed, hbindings⟩ := ih h hok
    exact ⟨hready, done, hclosed.skip (.inl hseen), hbindings⟩
  | case3 seenImports k lib remainingUses hseen hfile ih =>
    obtain ⟨⟨imports, k₁⟩, hload, hok⟩ := bind_eq_ok.mp hok
    obtain ⟨hfirst, hready₁, rfl⟩ := loadFiles_bindings hL h hload
    obtain ⟨hready, done, hclosed, hbindings⟩ := ih (usesIn L lib) k₁ hready₁ hok
    exact ⟨hready, lib :: done, hclosed.step hseen hfile, hfirst.trans hbindings⟩
  | case4 seenImports k lib remainingUses hseen hfile ih =>
    obtain ⟨hready, done, hclosed, hbindings⟩ := ih h hok
    exact ⟨hready, done, hclosed.skip (.inr (.inr (readFile_eq_none.mpr hfile))), hbindings⟩

/-! ## Where the loop is started -/

/-- An import keeps the invariant. -/
theorem loadImport_ready {imports : List String} (hL : Parsed L) (h : Ready L k)
    (hok : loadImport L inFile imports k lib = .ok k') : Ready L k' := by
  unfold loadImport at hok
  split at hok
  · rename_i etaPath heti
    obtain ⟨⟨i, k₁⟩, hload, heq⟩ := bind_eq_ok.mp hok
    cases heq
    exact (load_bindings h (fun _ => by rw [readFile, heti, Option.some_or]) hload).2.2.1
  · rename_i heti
    split at hok
    · rename_i rhoPath hri
      obtain ⟨⟨i, k₁⟩, hload, hok⟩ := bind_eq_ok.mp hok
      have hready := (load_bindings h (fun _ => by rw [readFile, heti, hri, Option.none_or]) hload).2.2.1
      exact (loadRemaining_run hL hready hok).1
    · cases hok

/-- The compiler keeps no tree before the imports of a module are loaded. -/
theorem checkOwnInterface_ready {own : List RhoRecord} {definitions : List (Definition Unit)}
    {imports : List String} (h : Loaded own k) (hlibs : k.libraries = .empty)
    (hok : checkOwnInterface L inFile definitions k = .ok (imports, k')) : Ready L k' := by
  have hready : ∀ k : Kompiler, Loaded own k → k.libraries = .empty → Ready L k := by
    intro k h hlibs
    exact ⟨h.topLevel, by rw [hlibs]; nofun⟩
  unfold checkOwnInterface at hok
  split at hok
  · cases hok
    exact hready _ h hlibs
  · obtain ⟨i, -, hok⟩ := bind_eq_ok.mp hok
    cases i with
    | etaInterface headers => cases hok
    | rhoInterface uses headers =>
      obtain ⟨k₁, hheaders, heq⟩ := bind_eq_ok.mp hok
      cases heq
      have hall := foldlM_ok [] (I := fun _ k => Loaded own k ∧ k.libraries = .empty)
        (fun _ header k k' hI hstep => by
          obtain ⟨hloaded, hempty, -⟩ := checkHeader_spec hI.1 hI.2 hstep
          exact ⟨hloaded, hempty⟩) hheaders ⟨h, hlibs⟩
      exact hready _ hall.1 hall.2

/-- Of a module that is accepted, every state between two loads is ready. -/
theorem createTopLevelContext_ready {imports : List String} {definitions : List (Definition Unit)}
    (hL : Parsed L) (hok : createTopLevelContext L inFile (.rhoModule imports definitions) = .ok k) :
    Ready L k := by
  obtain ⟨k₁, hrecords, hok⟩ := bind_eq_ok.mp hok
  obtain ⟨⟨interfaceImports, k₂⟩, hown, hfold⟩ := bind_eq_ok.mp hok
  obtain ⟨hloaded, hlibs⟩ := loadRecords_spec hrecords
  exact foldlM_ok [] (I := fun _ k => Ready L k)
    (fun _ lib k k' hI hstep => loadImport_ready hL hI hstep) hfold
    (checkOwnInterface_ready hloaded hlibs hown)

/-! ## Which headers are reachable, and which are bound -/

/-- The libraries reachable from the imports through the use clauses of `.ri` files. -/
inductive Reachable (L : Library) (imports : List String) : String → Prop
  | listed {lib : String} : lib ∈ imports → Reachable L imports lib
  | use {lib lib' : String} {uses : List String} {headers : List (Definition Unit)} :
      Reachable L imports lib → L.ri.get? lib = some (.ok (.rhoInterface uses headers)) →
      lib' ∈ uses → Reachable L imports lib'

/-- A header of a file of a reachable library, other than the module's own interface. -/
def ReachableHeader (L : Library) (own : String) (imports : List String) (header : Definition Unit) :
    Prop :=
  ∃ lib i, Reachable L imports lib ∧
    (L.eti.get? lib = some (.ok i) ∨ lib ≠ own ∧ L.ri.get? lib = some (.ok i)) ∧
    header ∈ i.headers ∧ (binding header).isSome

/-- The libraries the loop comes to: it goes on from the tree of a library only, and not from the
module. -/
inductive Walked (L : Library) (own : String) (imports : List String) : String → Prop
  | listed {lib : String} : lib ∈ imports → lib ≠ own → Walked L own imports lib
  | use {lib lib' : String} : Walked L own imports lib → lib' ∈ usesIn L lib → lib' ≠ own →
      Walked L own imports lib'

/-- A header of the tree of a library the loop comes to. -/
def WalkedHeader (L : Library) (own : String) (imports : List String) (header : Definition Unit) :
    Prop :=
  ∃ lib, Walked L own imports lib ∧ header ∈ headersOf L lib

/-- The loop has come to the libraries that are reachable without the module itself. -/
theorem mem_iff_walked {imports done : List String} {own : String}
    (h : Closed L [own ++ ".ri"] imports done) (hfile : readFile L lib ≠ none) :
    lib ∈ done ↔ Walked L own imports lib := by
  constructor
  · intro hlib
    have hall := h.origin (fun lib => lib ≠ own → Walked L own imports lib)
      (fun lib hlib hne => .listed hlib hne)
      (fun lib hw hs lib' hlib' hne => .use (hw fun heq => hs ((seen_own own lib).mpr heq)) hlib' hne)
      lib hlib
    exact hall.1 fun heq => hall.2 ((seen_own own lib).mpr heq)
  · intro hw
    have hdone : ∀ lib', lib' ≠ own → Handled L [own ++ ".ri"] done lib' → readFile L lib' ≠ none →
        lib' ∈ done := by
      rintro lib' hne (hs | hd | hn) hread
      · exact absurd ((seen_own own lib').mp hs) hne
      · exact hd
      · exact absurd hn hread
    induction hw with
    | listed hlib hne => exact hdone _ hne (h.remaining _ hlib) hfile
    | @use lib lib' hw hlib' hne ih =>
      have hread : readFile L lib ≠ none := by
        intro hnone
        rw [usesIn, hnone] at hlib'
        cases hlib'
      exact hdone _ hne (h.uses lib (ih hread) lib' hlib') hfile

/-- A run without a conflict binds the headers of all reachable files exactly when each of them was bound
before, or is like one in the trees the loop comes to. -/
theorem dependencies_bound_iff {imports : List String} (hL : Parsed L) (h : Ready L k)
    (hok : loadRhoInterfaceDependencies L inFile imports k = .ok k') :
    (∀ header, ReachableHeader L inFile.nameWithoutExtension imports header →
      Binds k'.returnGamma header) ↔
    ∀ header, ReachableHeader L inFile.nameWithoutExtension imports header →
      Binds k.returnGamma header ∨
        ∃ header', WalkedHeader L inFile.nameWithoutExtension imports header' ∧ Alike header' header := by
  obtain ⟨-, done, hclosed, hbindings⟩ := loadRemaining_run hL h hok
  have hdone : ∀ header, header ∈ done.flatMap (headersOf L) ↔
      WalkedHeader L inFile.nameWithoutExtension imports header := by
    intro header
    rw [List.mem_flatMap]
    refine exists_congr fun lib => and_congr_left fun hheader => mem_iff_walked hclosed ?_
    intro hnone
    rw [headersOf, hnone] at hheader
    cases hheader
  refine forall_congr' fun header => imp_congr_right fun _ => ?_
  constructor
  · rintro ⟨x, t, hbinding, existing, hlookup, hserves⟩
    rcases hbindings.source x existing hlookup with hold | ⟨header', hmem, hbinding'⟩
    · exact .inl ⟨x, t, hbinding, existing, hold, hserves⟩
    · exact .inr ⟨header', (hdone header').mp hmem, x, existing, t, hbinding', hbinding, hserves⟩
  · rintro (⟨x, t, hbinding, existing, hlookup, hserves⟩ | ⟨header', hwalked, x, t', t, h', ht, hserves⟩)
    · exact ⟨x, t, hbinding, existing, hbindings.keeps x existing hlookup, hserves⟩
    · obtain ⟨existing, hlookup, hserves'⟩ := hbindings.binds header' ((hdone header').mpr hwalked) x t' h'
      exact ⟨x, t, ht, existing, hlookup, serves_trans h' ht hserves' hserves⟩

/-! ## A library with two files -/

/-- The header of a function without arguments and results. -/
def headerOf (id : String) : Definition Unit := .method ⟨id, [], [], none⟩

/-- A context with one function. -/
def gammaOf (id : String) : Context := Context.init.bind id (.funType ⟨[], [], true⟩)

/-- The interface `a.ri`, which uses itself. -/
def libraryRi : Library where
  eti := .empty
  ri := LinkedMap.empty.insert "a" (.ok (.rhoInterface ["a"] [headerOf "f"]))

/-- The interface `a.ri`, next to an `a.eti`. -/
def libraryBoth : Library where
  eti := LinkedMap.empty.insert "a" (.ok (.etaInterface [headerOf "g"]))
  ri := LinkedMap.empty.insert "a" (.ok (.rhoInterface ["a"] [headerOf "f"]))

/-- The compiler after the `.ri` file of `a`. -/
def loadedRi : Kompiler where
  libraries := LinkedMap.empty.insert "a" (.rhoInterface ["a"] [headerOf "f"])
  moduleRecords := .empty
  returnGamma := gammaOf "f"

/-- The compiler after both files of `a`. -/
def loadedBoth : Kompiler where
  libraries := LinkedMap.empty.insert "a" (.etaInterface [headerOf "g"])
  moduleRecords := .empty
  returnGamma := gammaOf "g"

/-- A run that loads the one file. -/
theorem loadRi_run : loadRhoInterfaceDependencies libraryRi fileM ["a"] init = .ok loadedRi := by
  have hfiles : loadFiles libraryRi fileM "a" init = .ok (["a"], loadedRi) := rfl
  have hstart : loadRhoInterfaceDependencies libraryRi fileM ["a"] init =
      loadRemaining libraryRi fileM ["a"] ["m.ri"] init := rfl
  rw [hstart, loadRemaining, dif_neg (by decide), dif_pos (.inr rfl), hfiles]
  change loadRemaining libraryRi fileM ["a"] ["m.ri", "a.ri"] loadedRi = _
  rw [loadRemaining, dif_pos (by decide), loadRemaining]
  rfl

/-- An interface that uses itself is loaded once. -/
theorem dependencies_bound_cycle :
    (∀ header, ReachableHeader libraryRi "m" ["a"] header → Binds loadedRi.returnGamma header) ↔
    ∀ header, ReachableHeader libraryRi "m" ["a"] header → Binds init.returnGamma header ∨
      ∃ header', WalkedHeader libraryRi "m" ["a"] header' ∧ Alike header' header :=
  dependencies_bound_iff (by intro lib i h; simp [libraryRi] at h) (ready_init _) loadRi_run

/-- The `a.ri` is there, and its function is not bound. -/
theorem dependencies_unbound :
    loadRhoInterfaceDependencies libraryBoth fileM ["a"] init = .ok loadedBoth ∧
      ReachableHeader libraryBoth "m" ["a"] (headerOf "f") ∧
      ¬ Binds loadedBoth.returnGamma (headerOf "f") := by
  refine ⟨?_, ?_, ?_⟩
  · have hfiles : loadFiles libraryBoth fileM "a" init = .ok ([], loadedBoth) := rfl
    have hstart : loadRhoInterfaceDependencies libraryBoth fileM ["a"] init =
        loadRemaining libraryBoth fileM ["a"] ["m.ri"] init := rfl
    rw [hstart, loadRemaining, dif_neg (by decide), dif_pos (.inr rfl), hfiles]
    change loadRemaining libraryBoth fileM [] _ loadedBoth = _
    rw [loadRemaining]
    rfl
  · exact ⟨"a", .rhoInterface ["a"] [headerOf "f"], .listed List.mem_cons_self,
      .inr ⟨by decide, rfl⟩, List.mem_cons_self, rfl⟩
  · rintro ⟨x, t, hbinding, existing, hlookup, -⟩
    cases hbinding
    cases hlookup

end Jaek.Kompiler
