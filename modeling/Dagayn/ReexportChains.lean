import Dagayn.CallTargets

/-!
# Chains of re-exports

What `resolve_reexported_targets` writes: a node at the end of a chain of import hops from
the edge's target, with the symbol renamed at each hop, or the module `__getattr__` of a
file on the chain that defines the symbol. A chain of named imports alone is followed to
the first node on it. The pass does not touch what it reads, so a second run finds nothing.
-/

namespace Dagayn

namespace Store

/-! ## Hops -/

def boundSegment (symbol : String) : String := ((splitOnce "." symbol).map Prod.fst).getD symbol

/-- An import that binds the name: the same symbol in the module it comes from. -/
inductive NamedHop (s : Store) : String × String → String × String → Prop where
  | named {file symbol origin name : String} {m : ModuleImports} :
      s.moduleImports file = some m → m.lookup (boundSegment symbol) = some (origin, name) →
        NamedHop s (file, symbol) (origin, withHead name symbol)

/-- A hop by an import that binds the name, or else by a star import. -/
inductive ImportHop (s : Store) : String × String → String × String → Prop where
  | named {place place' : String × String} : NamedHop s place place' → ImportHop s place place'
  | star {file symbol origin : String} {m : ModuleImports} :
      s.moduleImports file = some m → m.lookup (boundSegment symbol) = none → origin ∈ m.stars →
        ImportHop s (file, symbol) (origin, symbol)

/-- An import row that binds the name, be it the last one of the file or not. -/
inductive BindingHop (s : Store) : String × String → String × String → Prop where
  | binds {symbol name : String} {row : EdgeRow} :
      row ∈ s.importRows → s.isFile row.target = true →
        (name, boundSegment symbol) ∈ (importNames row.extra).getD [] →
        BindingHop s (row.filePath, symbol) (row.target, withHead name symbol)

/-- So many hops from one place to another. -/
inductive Chain (hop : String × String → String × String → Prop) :
    Nat → String × String → String × String → Prop where
  | nil (place : String × String) : Chain hop 0 place place
  | cons {n : Nat} {place next last : String × String} :
      hop place next → Chain hop n next last → Chain hop (n + 1) place last

/-- `file::symbol`. -/
def declaredAt (place : String × String) : String := place.1 ++ "::" ++ place.2

/-- The symbol defined in the module's `__getattr__`. -/
def lazyAt (place : String × String) : String := place.1 ++ "::__getattr__." ++ place.2

theorem follow_sound {s : Store} {hops : Nat} {file symbol q : String}
    (h : follow s.moduleImports s.isNode hops file symbol = some q) :
    ∃ n place, Chain s.ImportHop n (file, symbol) place ∧
      ((n ≤ hops ∧ q = declaredAt place) ∨ (n < hops ∧ q = lazyAt place)) := by
  induction hops generalizing file symbol with
  | zero => cases h
  | succ hops ih =>
      have hnext : ∀ place, s.ImportHop (file, symbol) place →
          (if s.isNode (declaredAt place) then some (declaredAt place)
            else follow s.moduleImports s.isNode hops place.1 place.2) = some q →
          ∃ n last, Chain s.ImportHop n (file, symbol) last ∧
            ((n ≤ hops + 1 ∧ q = declaredAt last) ∨ (n < hops + 1 ∧ q = lazyAt last)) := by
        intro place hhop hq
        split at hq
        · obtain rfl := Option.some.inj hq
          exact ⟨1, place, .cons hhop (.nil place), .inl ⟨by omega, rfl⟩⟩
        · obtain ⟨n, last, hchain, hlast⟩ := ih hq
          refine ⟨n + 1, last, .cons hhop hchain, ?_⟩
          rcases hlast with ⟨hn, heq⟩ | ⟨hn, heq⟩
          · exact .inl ⟨by omega, heq⟩
          · exact .inr ⟨by omega, heq⟩
      simp only [follow] at h
      split at h
      · obtain rfl := Option.some.inj h
        exact ⟨0, (file, symbol), .nil _, .inr ⟨by omega, rfl⟩⟩
      · split at h
        · cases h
        · rename_i m hm
          split at h
          · rename_i origin name hlookup
            exact hnext (origin, withHead name symbol) (.named (.named hm hlookup)) h
          · rename_i hlookup
            obtain ⟨origin, hmem, ho⟩ := List.exists_of_findSome?_eq_some h
            exact hnext (origin, symbol) (.star hm hlookup hmem) ho

theorem follow_complete {s : Store} {n hops : Nat} {place last : String × String}
    (hchain : Chain s.NamedHop n place last) (hn : 0 < n) (hle : n ≤ hops)
    (hnode : s.isNode (declaredAt last) = true) :
    ∃ q i mid, follow s.moduleImports s.isNode hops place.1 place.2 = some q ∧ i ≤ n ∧
      Chain s.NamedHop i place mid ∧ Chain s.NamedHop (n - i) mid last ∧
      (q = declaredAt mid ∨ q = lazyAt mid) := by
  induction hchain generalizing hops with
  | nil => omega
  | @cons n place next last hhop hrest ih =>
      obtain ⟨hops, rfl⟩ : ∃ k, hops = k + 1 := ⟨hops - 1, by omega⟩
      cases hhop with
      | @named file symbol origin name m hm hlookup =>
          simp only [boundSegment] at hlookup
          by_cases hlazy : s.isNode (lazyAt (file, symbol)) = true
          · refine ⟨lazyAt (file, symbol), 0, (file, symbol), ?_, by omega, .nil _,
              .cons (.named hm hlookup) hrest, .inr rfl⟩
            simp only [follow]
            exact if_pos hlazy
          · by_cases hq : s.isNode (declaredAt (origin, withHead name symbol)) = true
            · refine ⟨_, 1, _, ?_, by omega, .cons (.named hm hlookup) (.nil _), hrest, .inl rfl⟩
              simp only [follow]
              refine (if_neg hlazy).trans ?_
              rw [hm]
              simp only [hlookup]
              exact if_pos hq
            · have hpos : 0 < n := by
                refine Nat.pos_of_ne_zero fun hzero => ?_
                subst hzero
                cases hrest
                exact hq hnode
              have hle' : n ≤ hops := by omega
              obtain ⟨q, i, mid, hfollow, hi, hto, hfrom, hmid⟩ := ih hpos hle' hnode
              refine ⟨q, i + 1, mid, ?_, by omega, .cons (.named hm hlookup) hto, ?_, hmid⟩
              · simp only [follow]
                refine (if_neg hlazy).trans ?_
                rw [hm]
                simp only [hlookup]
                exact (if_neg hq).trans hfollow
              · rwa [Nat.add_sub_add_right]

/-! ## The pass -/

variable {s s' : Store}

def reexportWrite (s : Store) (r : EdgeRow) : Option EdgeWrite :=
  (s.reexportTarget r.target).map fun q => .retarget q none directImportConfidence .high

theorem of_resolveReexportedTargets (h : s.resolveReexportedTargets = some s') :
    s.importRows.all importReadable = true ∧ s'.nodes = s.nodes ∧
      s'.edges.rows = s.edges.rows.map fun r =>
        if s.reexported r then rewritten r (s.reexportWrite r) else r := by
  unfold resolveReexportedTargets at h
  split at h
  · rename_i hread
    obtain rfl := Option.some.inj h
    exact ⟨hread, rewriteRows_nodes _ s 0, rewrite_rows s s.reexported s.reexportWrite⟩
  · cases h

theorem target_of_rewritten {r : EdgeRow} {q : String} (h : s.reexportTarget r.target = some q) :
    (rewritten r (s.reexportWrite r)).target = q := by
  rw [reexportWrite, h]
  rfl

theorem rewritten_of_none {r : EdgeRow} (h : s.reexportTarget r.target = none) :
    rewritten r (s.reexportWrite r) = r := by
  rw [reexportWrite, h]
  rfl

theorem kind_of_reexported {r : EdgeRow} (h : s.reexported r = true) :
    r.kind ≠ "IMPORTS_FROM" := by
  simp only [reexported, reexportKind, Bool.and_eq_true, Bool.or_eq_true, decide_eq_true_eq] at h
  rcases h.1.1 with ((hk | hk) | hk) | hk <;> simp [hk]

theorem of_reexportTarget {target q : String} (h : s.reexportTarget target = some q) :
    ∃ start, splitOnce "::" target = some start ∧ s.isFile start.1 = true ∧
      follow s.moduleImports s.isNode maxHops start.1 start.2 = some q := by
  rw [reexportTarget, Option.bind_eq_bind, Option.bind_eq_some_iff] at h
  obtain ⟨⟨file, symbol⟩, hsplit, h⟩ := h
  by_cases hfile : s.isFile file = true
  · exact ⟨(file, symbol), hsplit, hfile, (if_pos hfile).symm.trans h⟩
  · cases (if_neg hfile).symm.trans h

theorem importRows_of_resolve (h : s.resolveReexportedTargets = some s') :
    s'.importRows = s.importRows := by
  obtain ⟨-, -, hrows⟩ := of_resolveReexportedTargets h
  have hkept : ∀ r : EdgeRow, r.kind = "IMPORTS_FROM" →
      (if s.reexported r then rewritten r (s.reexportWrite r) else r) = r := fun r hk =>
    if_neg fun hsel => kind_of_reexported hsel hk
  have hkind : ∀ r : EdgeRow,
      (if s.reexported r then rewritten r (s.reexportWrite r) else r).kind = r.kind := by
    intro r
    split
    · exact rewritten_kind r _
    · rfl
  rw [importRows, hrows]
  refine filter_map_of_fixed (fun r _ => ?_) fun r _ hsel => ?_
  · by_cases hk : r.kind = "IMPORTS_FROM"
    · rw [hkept r hk]
    · simp only [hkind, hk, decide_false, Bool.false_and]
  · simp only [Bool.and_eq_true, decide_eq_true_eq] at hsel
    exact hkept r hsel.1

theorem isNode_of_resolve (h : s.resolveReexportedTargets = some s') : s'.isNode = s.isNode := by
  funext q
  rw [isNode, isNode, (of_resolveReexportedTargets h).2.1]

theorem reexportTarget_of_resolve (h : s.resolveReexportedTargets = some s') :
    s'.reexportTarget = s.reexportTarget := by
  have hfile : s'.isFile = s.isFile := by
    funext q
    rw [isFile, isFile, (of_resolveReexportedTargets h).2.1]
  have himports : s'.moduleImports = s.moduleImports := by
    funext file
    rw [moduleImports, moduleImports, importRows_of_resolve h, hfile]
  funext target
  rw [reexportTarget, reexportTarget, hfile, himports, isNode_of_resolve h]

theorem resolveReexportedTargets_idem (h : s.resolveReexportedTargets = some s') :
    s'.resolveReexportedTargets = some s' := by
  obtain ⟨hread, -, hrows⟩ := of_resolveReexportedTargets h
  have hselected : s'.reexported = s.reexported := by
    funext r
    rw [reexported, reexported, isNode_of_resolve h]
  rw [resolveReexportedTargets, importRows_of_resolve h, if_pos hread, rewrite_eq_self]
  intro r' hr' hsel
  rw [hrows, List.mem_map] at hr'
  obtain ⟨r, -, rfl⟩ := hr'
  rw [reexportTarget_of_resolve h]
  rw [hselected] at hsel
  split at hsel
  · rename_i hr
    cases hq : s.reexportTarget r.target with
    | none => simp only [rewritten_of_none hq, hq, hr, if_true, Option.map_none]
    | some q =>
        -- the target is a node now
        simp only [reexported, target_of_rewritten hq, isNode_of_reexportTarget hq,
          Bool.not_true, Bool.and_false, Bool.false_eq_true] at hsel
  · rename_i hr
    exact absurd hsel hr

/-- What `resolve_reexported_targets` does where the import rows convert. Each edge stays as
it is or gets a target that is a node at the end of a chain of imports, at most eight, or
the symbol in the `__getattr__` of a module on it; a chain of named imports from a `File`
node is followed to a node on it; and a second run changes nothing. -/
theorem resolveReexportedTargets_follows (hread : s.importRows.all importReadable = true) :
    ∃ s', s.resolveReexportedTargets = some s' ∧
      (∀ r' ∈ s'.edges.rows, ∃ r ∈ s.edges.rows, r.id = r'.id ∧
        (r' = r ∨ s.isNode r'.target = true ∧
          ∃ start, splitOnce "::" r.target = some start ∧ s.isFile start.1 = true ∧
            ∃ n place, Chain s.ImportHop n start place ∧
              ((n ≤ 8 ∧ r'.target = declaredAt place) ∨
                (n < 8 ∧ r'.target = lazyAt place)))) ∧
      (∀ r ∈ s.edges.rows, s.reexported r = true → ∀ start n last,
        splitOnce "::" r.target = some start → s.isFile start.1 = true →
        Chain s.NamedHop n start last → 0 < n → n ≤ 8 → s.isNode (declaredAt last) = true →
        ∃ r' ∈ s'.edges.rows, r'.id = r.id ∧ s.isNode r'.target = true ∧
          ∃ i mid, i ≤ n ∧ Chain s.NamedHop i start mid ∧ Chain s.NamedHop (n - i) mid last ∧
            (r'.target = declaredAt mid ∨ r'.target = lazyAt mid)) ∧
      s'.resolveReexportedTargets = some s' := by
  obtain ⟨s', hs'⟩ : ∃ s', s.resolveReexportedTargets = some s' :=
    ⟨_, by rw [resolveReexportedTargets, if_pos hread]⟩
  obtain ⟨-, -, hrows⟩ := of_resolveReexportedTargets hs'
  refine ⟨s', hs', fun r' hr' => ?_, fun r hr hsel start n last hsplit hfile hchain hn hle hnode =>
    ?_, resolveReexportedTargets_idem hs'⟩
  · rw [hrows, List.mem_map] at hr'
    obtain ⟨r, hr, rfl⟩ := hr'
    refine ⟨r, hr, ?_, ?_⟩
    · split
      · exact (rewritten_id r _).symm
      · rfl
    · split
      · cases hq : s.reexportTarget r.target with
        | none => exact .inl (rewritten_of_none hq)
        | some q =>
            refine .inr ?_
            rw [target_of_rewritten hq]
            obtain ⟨start, hsplit, hfile, hfollow⟩ := of_reexportTarget hq
            exact ⟨isNode_of_reexportTarget hq, start, hsplit, hfile, follow_sound hfollow⟩
      · exact .inl rfl
  · obtain ⟨q, i, mid, hfollow, hi, hto, hfrom, hmid⟩ := follow_complete hchain hn hle hnode
    have hq : s.reexportTarget r.target = some q := by
      rw [reexportTarget, hsplit]
      exact (if_pos hfile).trans hfollow
    refine ⟨rewritten r (s.reexportWrite r), ?_, rewritten_id r _, ?_, i, mid, hi, hto, hfrom, ?_⟩
    · rw [hrows]
      exact List.mem_map.mpr ⟨r, hr, if_pos hsel⟩
    · rw [target_of_rewritten hq]
      exact isNode_of_reexportTarget hq
    · rwa [target_of_rewritten hq]

def fileInput (path : String) : NodeInput := { kind := "File", name := path, filePath := path }

/-- `pkg/__init__.py` with the nodes `declared` and the imports `rows`, as module, name and
bound name; `app.py` calls its `Store`. -/
def packageStore (declared : List NodeInput) (rows : List (String × String × String)) :
    Store where
  nodes := upsertNodes .empty <|
    (["pkg/__init__.py", "pkg/old.py", "pkg/new.py"].map fileInput ++ declared).map
      fun n => (n, "", 0)
  edges := (rows.foldl (fun t row => t.insert (EdgeInput.row
      { kind := "IMPORTS_FROM", source := "pkg/__init__.py", target := row.1
        filePath := "pkg/__init__.py", line := 1 }
      (.obj [("names", .arr [.arr [.str row.2.1, .str row.2.2]])]))) EdgeTable.empty).insert
    (EdgeInput.row
      { kind := "CALLS", source := "app.py::main", target := "pkg/__init__.py::Store"
        filePath := "app.py", line := 3 } (.obj []))

/-- `__init__.py` defines `Store` in its `__getattr__` and imports nothing. -/
def lazyStore : Store :=
  packageStore [{
    kind := "Class", name := "Store", filePath := "pkg/__init__.py"
    parentName := some "__getattr__" }] []

/-- `__init__.py` imports `Store` from `new.py`, which has it, and then from `old.py`. -/
def shadowStore : Store :=
  packageStore [{ kind := "Class", name := "Store", filePath := "pkg/new.py" }]
    [("pkg/new.py", "Store", "Store"), ("pkg/old.py", "Store", "Store")]

/-- `__init__.py` imports `Store` from `new.py`, which has it as `Database`. -/
def renamedStore : Store :=
  packageStore [{ kind := "Class", name := "Database", filePath := "pkg/new.py" }]
    [("pkg/new.py", "Database", "Store")]

theorem renamedStore_resolves :
    ∃ s', renamedStore.resolveReexportedTargets = some s' ∧
      (∃ r' ∈ s'.edges.rows, r'.id = 2 ∧ renamedStore.isNode r'.target = true) ∧
      s'.resolveReexportedTargets = some s' := by
  obtain ⟨s', hs', -, hfollows, hidem⟩ :=
    resolveReexportedTargets_follows (s := renamedStore) (by decide)
  obtain ⟨r, hr, hid, hsel, htarget⟩ : ∃ r ∈ renamedStore.edges.rows, r.id = 2 ∧
      renamedStore.reexported r = true ∧ r.target = "pkg/__init__.py::Store" :=
    ⟨renamedStore.edges.rows.getLast (by decide), List.getLast_mem _, by decide, by decide, rfl⟩
  have hhop : renamedStore.NamedHop ("pkg/__init__.py", "Store") ("pkg/new.py", "Database") :=
    NamedHop.named (m := ⟨[("Store", "pkg/new.py", "Database")], []⟩) rfl rfl
  obtain ⟨r', hr', hid', hnode, -⟩ := hfollows r hr hsel ("pkg/__init__.py", "Store") 1
    ("pkg/new.py", "Database") (by rw [htarget]; decide) (by decide) (.cons hhop (.nil _))
    (by decide) (by decide) (by decide)
  exact ⟨s', hs', ⟨r', hr', hid'.trans hid, hnode⟩, hidem⟩

/-- A call of what a `__getattr__` defines is moved along no chain of imports, and an import
that a later one of the same name shadows is not followed. -/
theorem not_resolves_by_imports_alone :
    (∃ s', lazyStore.resolveReexportedTargets = some s' ∧
      ∃ r' ∈ s'.edges.rows, r'.target = "pkg/__init__.py::__getattr__.Store" ∧
        lazyStore.edges.rows.map EdgeRow.target = ["pkg/__init__.py::Store"] ∧
        ∀ n place, Chain lazyStore.ImportHop n ("pkg/__init__.py", "Store") place →
          r'.target ≠ declaredAt place) ∧
    (Chain shadowStore.BindingHop 1 ("pkg/__init__.py", "Store") ("pkg/new.py", "Store") ∧
      shadowStore.isNode (declaredAt ("pkg/new.py", "Store")) = true ∧
      ∃ s', shadowStore.resolveReexportedTargets = some s' ∧
        s'.edges.rows.map EdgeRow.target = ["pkg/new.py", "pkg/old.py", "pkg/__init__.py::Store"])
    := by
  refine ⟨?_, ?_, by decide, ?_⟩
  · have htargets : lazyStore.resolveReexportedTargets.map
        (fun s' => s'.edges.rows.map EdgeRow.target)
          = some ["pkg/__init__.py::__getattr__.Store"] := by decide
    obtain ⟨s', hs', hrows⟩ := Option.map_eq_some_iff.mp htargets
    have hmem : "pkg/__init__.py::__getattr__.Store" ∈ s'.edges.rows.map EdgeRow.target := by
      rw [hrows]
      exact List.mem_singleton_self _
    obtain ⟨r', hr', htarget⟩ := List.mem_map.mp hmem
    have hnone : lazyStore.importRows = [] := rfl
    have himports : ∀ file, lazyStore.moduleImports file = none := by
      intro file
      simp [moduleImports, hnone]
    refine ⟨s', hs', r', hr', htarget, rfl, fun n place hchain => ?_⟩
    rw [htarget]
    cases hchain with
    | nil => decide
    | cons hhop _ =>
        cases hhop with
        | named hnamed => cases hnamed with | named hm _ => simp [himports] at hm
        | star hm _ _ => simp [himports] at hm
  · have hrow : shadowStore.importRows.head (by decide) ∈ shadowStore.importRows := List.head_mem _
    exact .cons (BindingHop.binds hrow (by decide) (by decide)) (.nil _)
  · exact Option.map_eq_some_iff.mp (show shadowStore.resolveReexportedTargets.map
      (fun s' => s'.edges.rows.map EdgeRow.target) = _ by decide)

end Store

end Dagayn
