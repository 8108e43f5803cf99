import Dagayn.CallTargets
import Dagayn.JsonFields
import Dagayn.Visibility
import Mathlib

/-!
# Members of a foreign type

`link_foreign_impl_members`: members of an `impl` in another file than the type's, and the
`IMPLEMENTS` edges of such an `impl`, start at the type's node; the source they had is kept
in `extra.impl_owner_from`. A run first gives the edges whose owner is gone their source
back, and then moves all it finds an owner for, these too.
-/

namespace Dagayn

open Grouping Propagation

/-- `json_set(COALESCE(NULLIF(extra, ''), '{}'), '$.key', value)`: what is no object stays.
`.null` stands for a column that is NULL, and never for the text `null`. -/
def Json.sqlSet (extra : Json) (key : String) (value : Json) : Json :=
  match extra with
  | .null => .obj [(key, value)]
  | .obj fields => (Json.obj fields).insert key value
  | v => v

/-! ## Which type owns a member -/

def fileOf (qualified : String) : String := nodeFileFromQualified qualified qualified

def onlyOne {α : Type} : List α → Option α
  | [a] => some a
  | _ => none

def onlyInNamedModule (candidates : List String) (owner : String) : Option String :=
  match rsplitOnce "." owner with
  | some (path, _) =>
      onlyOne (candidates.filter fun qualified =>
        let file := fileOf qualified
        let stem := ((stripSuffix "/mod.rs" file).or (stripSuffix ".rs" file)).getD file
        lastPart ['/'] stem = lastPart ['.'] path)
  | none => none

def sourceRootOf (file : String) : Option String :=
  let components := file.toList.splitOnP (· = '/')
  (components.findIdx? fun component =>
    String.ofList component ∈ ["src", "tests", "benches", "examples"]).map fun i =>
      String.ofList (['/'].intercalate (components.take (i + 1)))

def onlyInPackage (candidates : List String) (file : String) : Option String :=
  match sourceRootOf file with
  | some root => onlyOne (candidates.filter fun qualified =>
      sourceRootOf (fileOf qualified) = some root)
  | none => none

namespace Store

/-- The rows `rust_type_index` selects. -/
def isRustType (s : Store) (n : NodeRow) : Bool :=
  n.input.language = "rust" &&
    ((n.input.kind = "Class" && n.input.extra.getStr "type_role" ≠ some "module") ||
      (n.input.kind = "Type" &&
        match n.input.parentName with
        | none => true
        | some parent => s.nodes.rows.any fun m =>
            m.qualifiedName = n.input.filePath ++ "::" ++ parent &&
              m.input.extra.getStr "type_role" = some "module"))

def rustTypeIndex (s : Store) : Dict String (List String) :=
  multimap ((s.nodes.rows.filter s.isRustType).map fun n => (n.input.name, n.qualifiedName))

def ownerNode (s : Store) (targets : Dict String (List String)) (p : String × String) :
    Option String :=
  match s.rustTypeIndex.lookup (lastPart ['.'] p.2) with
  | none => none
  | some candidates =>
      match candidates.filter fun qualified => fileOf qualified = p.1 with
      | [only] => some only
      | [] =>
          ((((resolveViaImports targets s.symbolVisibility candidates p.1).map Prod.fst).or
            (onlyInNamedModule candidates p.2)).or (onlyInPackage candidates p.1))
      | _ => none

/-! ## The pass -/

/-- `impl_owner_from`. -/
def movedFrom : String := "impl_owner_from"

/-- An edge that was moved and whose owner is no node. -/
def orphaned (s : Store) (r : EdgeRow) : Bool := r.extra.has movedFrom && !s.isNode r.source

/-- `json_extract` of a value that is there: a string is its text, and `render` is how SQLite
prints the others. -/
def sqlText (render : Json → String) : Option Json → String
  | some (.str text) => text
  | some v => render v
  | none => ""

/-- `restore_orphaned_edges`, for one edge. -/
def restoreSource (render : Json → String) (s : Store) (r : EdgeRow) : EdgeRow :=
  if s.orphaned r then
    { r with
      source := sqlText render (r.extra.get movedFrom), extra := r.extra.erase movedFrom }
  else r

def restoreOrphanedEdges (render : Json → String) (s : Store) : Store :=
  { s with edges := s.edges.updateWhere s.orphaned fun r =>
      { r with
        source := sqlText render (r.extra.get movedFrom), extra := r.extra.erase movedFrom } }

/-- Members and `IMPLEMENTS` edges of the owners that are no node. -/
def foreignMembers (s : Store) : List (String × String) :=
  s.nodes.rows.filterMap fun n =>
    match n.input.parentName with
    | some parent =>
        if n.input.language = "rust" && (n.input.kind = "Function" || n.input.kind = "Test") &&
            !s.isNode (n.input.filePath ++ "::" ++ parent) then
          some (n.input.filePath, parent)
        else none
    | none => none

def foreignImplements (s : Store) : List (String × String) :=
  s.edges.rows.filterMap fun r =>
    let file := r.filePath ++ "::"
    if r.kind = "IMPLEMENTS" && likeSuffix ".rs" r.filePath &&
        file.toList.isPrefixOf r.source.toList && !s.isNode r.source then
      some (r.filePath, String.ofList (r.source.toList.drop file.toList.length))
    else none

/-- `ORDER BY 1, 2`. -/
def pairLe (p q : String × String) : Bool := p.1 < q.1 || (p.1 = q.1 && p.2 ≤ q.2)

def foreignOwners (s : Store) : List (String × String) :=
  ((s.foreignMembers ++ s.foreignImplements).dedup).insertionSort fun p q => pairLe p q = true

/-- The rows `move_owner_edges` moves. -/
def ownedBy (s : Store) (p : String × String) (r : EdgeRow) : Bool :=
  r.filePath = p.1 &&
    ((r.kind = "CONTAINS" && r.source = p.1 &&
        s.nodes.rows.any fun n => n.qualifiedName = r.target && n.input.filePath = p.1 &&
          n.input.parentName = some p.2 && !n.input.extra.has "impl_target") ||
      (r.kind = "IMPLEMENTS" && r.source = p.1 ++ "::" ++ p.2 && !r.extra.has "impl_target"))

def movedTo (owner : String) (r : EdgeRow) : EdgeRow :=
  { r with source := owner, extra := r.extra.sqlSet movedFrom (.str r.source) }

/-- `move_owner_edges`, with the number of edges moved. -/
def moveOwnerEdges (owner : String × String → Option String) (acc : Store × Nat)
    (p : String × String) : Store × Nat :=
  match owner p with
  | some q =>
      ({ acc.1 with edges := acc.1.edges.updateWhere (acc.1.ownedBy p) (movedTo q) },
        acc.2 + (acc.1.edges.rows.filter (acc.1.ownedBy p)).length)
  | none => acc

def linkForeignImplMembers (render : Json → String) (o : Orders String) (fuel : Nat) (s : Store) :
    Option (Store × Nat) :=
  let s := s.restoreOrphanedEdges render
  (s.importTargetsConn o fuel).map fun targets =>
    s.foreignOwners.foldl (moveOwnerEdges (s.ownerNode targets)) (s, 0)

/-! ## One edge -/

variable {s s' : Store} {r r' : EdgeRow} {p p' : String × String}
  {owner : String × String → Option String}

def moveRow (s : Store) (owner : String × String → Option String) (r : EdgeRow)
    (p : String × String) : EdgeRow :=
  match owner p with
  | some q => if s.ownedBy p r then movedTo q r else r
  | none => r

theorem ownedBy_congr (h : s'.nodes = s.nodes) : s'.ownedBy = s.ownedBy := by
  funext p r
  rw [ownedBy, ownedBy, h]

theorem moveRow_congr (h : s'.nodes = s.nodes) : s'.moveRow owner = s.moveRow owner := by
  funext r p
  rw [moveRow, moveRow, ownedBy_congr h]

theorem foldl_moveOwnerEdges (owner : String × String → Option String)
    (owners : List (String × String)) : ∀ acc : Store × Nat,
    (owners.foldl (moveOwnerEdges owner) acc).1.nodes = acc.1.nodes ∧
      (owners.foldl (moveOwnerEdges owner) acc).1.edges.rows =
        acc.1.edges.rows.map fun r => owners.foldl (acc.1.moveRow owner) r := by
  induction owners with
  | nil => exact fun acc => ⟨rfl, (List.map_id _).symm⟩
  | cons p owners ih =>
      intro acc
      obtain ⟨hnodes, hrows⟩ := ih (moveOwnerEdges owner acc p)
      have hsame : (moveOwnerEdges owner acc p).1.nodes = acc.1.nodes := by
        unfold moveOwnerEdges
        split <;> rfl
      have hstep : (moveOwnerEdges owner acc p).1.edges.rows =
          acc.1.edges.rows.map fun r => acc.1.moveRow owner r p := by
        unfold moveOwnerEdges moveRow
        split
        · rfl
        · exact (List.map_id _).symm
      refine ⟨hnodes.trans hsame, ?_⟩
      rw [List.foldl_cons, hrows, hstep, List.map_map, moveRow_congr hsame]
      rfl

/-- A member edge of an owner: the file contains the member, or the owner implements. -/
theorem ownedBy_iff : s.ownedBy p r = true ↔ r.filePath = p.1 ∧
    ((r.kind = "CONTAINS" ∧ r.source = p.1 ∧ ∃ n ∈ s.nodes.rows, n.qualifiedName = r.target ∧
        n.input.filePath = p.1 ∧ n.input.parentName = some p.2 ∧
        n.input.extra.has "impl_target" = false) ∨
      (r.kind = "IMPLEMENTS" ∧ r.source = p.1 ++ "::" ++ p.2 ∧
        r.extra.has "impl_target" = false)) := by
  simp [ownedBy, and_assoc]

theorem ownedBy_unique (h : s.ownedBy p r = true) (h' : s.ownedBy p' r = true) : p = p' := by
  obtain ⟨hfile, hp⟩ := ownedBy_iff.mp h
  obtain ⟨hfile', hp'⟩ := ownedBy_iff.mp h'
  have hfst : p.1 = p'.1 := hfile.symm.trans hfile'
  refine Prod.ext hfst ?_
  rcases hp with ⟨hkind, -, n, hn, hname, -, hparent, -⟩ | ⟨hkind, hsource, -⟩
  · rcases hp' with ⟨-, -, n', hn', hname', -, hparent', -⟩ | ⟨hkind', -⟩
    · obtain rfl := List.inj_on_of_nodup_map s.nodes.names_nodup hn hn' (hname.trans hname'.symm)
      exact Option.some.inj (hparent.symm.trans hparent')
    · exact absurd (hkind.symm.trans hkind') (by decide)
  · rcases hp' with ⟨hkind', -⟩ | ⟨-, hsource', -⟩
    · exact absurd (hkind.symm.trans hkind') (by decide)
    · have heq := congrArg String.toList (hsource.symm.trans hsource')
      rw [String.toList_append, String.toList_append, String.toList_append, String.toList_append,
        hfst] at heq
      exact String.toList_inj.mp (List.append_cancel_left heq)

theorem sqlSet_idem (extra : Json) (key : String) (value : Json) :
    (extra.sqlSet key value).sqlSet key value = extra.sqlSet key value := by
  cases extra with
  | null =>
      exact (show (Json.obj [(key, value)]).Fixed key value from
        ⟨_, rfl, by simp, fun f hf _ => List.mem_singleton.mp hf⟩).insert_eq
  | obj fields =>
      have hfixed := Json.fixed_insert (.obj fields) key value
      obtain ⟨fields', heq, -⟩ := id hfixed
      show Json.sqlSet ((Json.obj fields).insert key value) key value =
        (Json.obj fields).insert key value
      rw [heq] at hfixed ⊢
      exact hfixed.insert_eq
  | _ => rfl

theorem moveRow_movedTo {q : String} (howner : owner p = some q) (hnode : s.isNode q = true)
    (hown : s.ownedBy p r = true) (hp' : s.isNode (p'.1 ++ "::" ++ p'.2) = false) :
    s.moveRow owner (movedTo q r) p' = movedTo q r := by
  unfold moveRow
  split
  · rename_i q' howner'
    split
    · rename_i hown'
      obtain ⟨hfile, hmember⟩ := ownedBy_iff.mp hown
      obtain ⟨hfile', ⟨hkind', hq, n', hn', hname', -, hparent', -⟩ | ⟨-, hq, -⟩⟩ :=
        ownedBy_iff.mp hown'
      · -- the owner's node is the file itself, which the source was before
        rcases hmember with ⟨-, hsource, n, hn, hname, -, hparent, -⟩ | ⟨hkind, -⟩
        · obtain rfl := List.inj_on_of_nodup_map s.nodes.names_nodup hn hn'
            (hname.trans hname'.symm)
          have hpp : p = p' := Prod.ext (hfile.symm.trans hfile')
            (Option.some.inj (hparent.symm.trans hparent'))
          subst hpp
          obtain rfl := Option.some.inj (howner.symm.trans howner')
          have hfst : p.1 = q := hq.symm
          have hsame : r.source = q := hsource.trans hfst
          simp only [movedTo, hsame, sqlSet_idem]
        · exact absurd (hkind.symm.trans hkind') (by decide)
      · have hsource : q = p'.1 ++ "::" ++ p'.2 := hq
        rw [hsource, hp'] at hnode
        cases hnode
    · rfl
  · rfl

theorem foldl_fixed {owners : List (String × String)}
    (h : ∀ p ∈ owners, s.moveRow owner r p = r) : owners.foldl (s.moveRow owner) r = r := by
  induction owners with
  | nil => rfl
  | cons p owners ih =>
      rw [List.foldl_cons, h p List.mem_cons_self]
      exact ih fun p' hp' => h p' (List.mem_cons_of_mem _ hp')

theorem foldl_moveRow_cases {owners : List (String × String)}
    (hvalid : ∀ p ∈ owners, s.isNode (p.1 ++ "::" ++ p.2) = false)
    (hnode : ∀ p q, owner p = some q → s.isNode q = true) (r : EdgeRow) :
    (owners.foldl (s.moveRow owner) r = r ∧ ∀ p ∈ owners, s.moveRow owner r p = r) ∨
      ∃ p ∈ owners, ∃ q, owner p = some q ∧ s.ownedBy p r = true ∧
        owners.foldl (s.moveRow owner) r = movedTo q r := by
  induction owners with
  | nil => exact .inl ⟨rfl, fun _ hp => absurd hp List.not_mem_nil⟩
  | cons p owners ih =>
      have htail := ih fun p' hp' => hvalid p' (List.mem_cons_of_mem _ hp')
      have hskip : s.moveRow owner r p = r →
          ((p :: owners).foldl (s.moveRow owner) r = r ∧
            ∀ p' ∈ p :: owners, s.moveRow owner r p' = r) ∨
          ∃ p' ∈ p :: owners, ∃ q, owner p' = some q ∧ s.ownedBy p' r = true ∧
            (p :: owners).foldl (s.moveRow owner) r = movedTo q r := by
        intro hrow
        rw [List.foldl_cons, hrow]
        refine htail.imp (fun ⟨heq, hall⟩ => ⟨heq, fun p' hp' => ?_⟩)
          fun ⟨p', hp', hrest⟩ => ⟨p', List.mem_cons_of_mem _ hp', hrest⟩
        exact (List.mem_cons.mp hp').elim (fun heq => heq ▸ hrow) (hall p')
      cases howner : owner p with
      | none => exact hskip (by rw [moveRow, howner])
      | some q =>
          by_cases hown : s.ownedBy p r = true
          · refine .inr ⟨p, List.mem_cons_self, q, howner, hown, ?_⟩
            have hrow : s.moveRow owner r p = movedTo q r := by
              rw [moveRow, howner]
              exact if_pos hown
            rw [List.foldl_cons, hrow]
            exact foldl_fixed fun p' hp' => moveRow_movedTo howner (hnode p q howner) hown
              (hvalid p' (List.mem_cons_of_mem _ hp'))
          · refine hskip ?_
            rw [moveRow, howner]
            exact if_neg hown

theorem moveRow_foldl {owners : List (String × String)}
    (hvalid : ∀ p ∈ owners, s.isNode (p.1 ++ "::" ++ p.2) = false)
    (hnode : ∀ p q, owner p = some q → s.isNode q = true) (hp : p ∈ owners) (r : EdgeRow) :
    s.moveRow owner (owners.foldl (s.moveRow owner) r) p = owners.foldl (s.moveRow owner) r := by
  rcases foldl_moveRow_cases hvalid hnode r with ⟨heq, hall⟩ | ⟨p', hp', q, howner, hown, heq⟩
  · rw [heq]
    exact hall p hp
  · rw [heq]
    exact moveRow_movedTo howner (hnode p' q howner) hown (hvalid p hp)

/-! ## The edges whose owner is gone -/

theorem restoreOrphanedEdges_rows (render : Json → String) (s : Store) :
    (s.restoreOrphanedEdges render).edges.rows = s.edges.rows.map (restoreSource render s) := rfl

theorem restoreSource_of_not {render : Json → String} (h : s.orphaned r = false) :
    restoreSource render s r = r := by
  rw [restoreSource, h]
  exact if_neg Bool.false_ne_true

theorem not_orphaned_restoreSource (render : Json → String) (s : Store) (r : EdgeRow) :
    s.orphaned (restoreSource render s r) = false := by
  cases h : s.orphaned r with
  | false => rw [restoreSource_of_not h, h]
  | true =>
      have hnone : (r.extra.erase movedFrom).has movedFrom = false := by
        rw [Json.has, Json.get_erase, if_pos rfl]
      rw [restoreSource, h, if_pos rfl, orphaned, hnone, Bool.false_and]

theorem id_restoreSource (render : Json → String) (s : Store) (r : EdgeRow) :
    (restoreSource render s r).id = r.id := by
  unfold restoreSource
  split <;> rfl

theorem restoreOrphanedEdges_rows_of_not (render : Json → String)
    (h : ∀ r ∈ s.edges.rows, s.orphaned r = false) :
    (s.restoreOrphanedEdges render).edges.rows = s.edges.rows := by
  rw [restoreOrphanedEdges_rows]
  exact (List.map_congr_left fun r hr => restoreSource_of_not (h r hr)).trans (List.map_id' _)

/-! ## The owners -/

theorem isNode_of_foreignOwners (hp : p ∈ s.foreignOwners) :
    s.isNode (p.1 ++ "::" ++ p.2) = false := by
  rw [foreignOwners, List.mem_insertionSort, List.mem_dedup, List.mem_append] at hp
  rcases hp with hp | hp
  · obtain ⟨n, -, hn⟩ := List.mem_filterMap.mp hp
    split at hn
    · split at hn
      · rename_i hif
        obtain rfl := Option.some.inj hn
        simpa using (Bool.and_eq_true_iff.mp hif).2
      · cases hn
    · cases hn
  · obtain ⟨r, -, hr⟩ := List.mem_filterMap.mp hp
    simp only at hr
    split at hr
    · rename_i hif
      obtain rfl := Option.some.inj hr
      simp only [Bool.and_eq_true, Bool.not_eq_true'] at hif
      obtain ⟨⟨-, hpre⟩, hnode⟩ := hif
      obtain ⟨rest, hrest⟩ := List.isPrefixOf_iff_prefix.mp hpre
      have hsource : r.filePath ++ "::" ++ String.ofList
          (r.source.toList.drop (r.filePath ++ "::").toList.length) = r.source := by
        rw [← String.toList_inj, String.toList_append, String.toList_ofList, ← hrest,
          List.drop_left]
      rw [hsource]
      exact hnode
    · cases hr

theorem foreignOwners_subset (hnodes : s'.nodes = s.nodes)
    (hrows : ∀ r ∈ s'.edges.rows, s.isNode r.source = false → r ∈ s.edges.rows)
    (hp : p ∈ s'.foreignOwners) : p ∈ s.foreignOwners := by
  have hisNode : s'.isNode = s.isNode := by
    funext q
    rw [isNode, isNode, hnodes]
  rw [foreignOwners, List.mem_insertionSort, List.mem_dedup, List.mem_append] at hp ⊢
  refine hp.imp (fun hmember => ?_) fun himplements => ?_
  · rw [foreignMembers, hnodes, hisNode] at hmember
    exact hmember
  · obtain ⟨r, hr, hsome⟩ := List.mem_filterMap.mp himplements
    rw [hisNode] at hsome
    refine List.mem_filterMap.mpr ⟨r, hrows r hr ?_, hsome⟩
    simp only at hsome
    split at hsome
    · rename_i hif
      simpa using (Bool.and_eq_true_iff.mp hif).2
    · cases hsome

theorem mem_of_onlyOne {l : List String} {q : String} (h : onlyOne l = some q) : q ∈ l := by
  unfold onlyOne at h
  split at h
  · exact List.mem_singleton.mpr (Option.some.inj h).symm
  · cases h

theorem mem_of_onlyInNamedModule {candidates : List String} {owner q : String}
    (h : onlyInNamedModule candidates owner = some q) : q ∈ candidates := by
  unfold onlyInNamedModule at h
  split at h
  · exact List.mem_of_mem_filter (mem_of_onlyOne h)
  · cases h

theorem mem_of_onlyInPackage {candidates : List String} {file q : String}
    (h : onlyInPackage candidates file = some q) : q ∈ candidates := by
  unfold onlyInPackage at h
  split at h
  · exact List.mem_of_mem_filter (mem_of_onlyOne h)
  · cases h

theorem rustType_of_ownerNode {targets : Dict String (List String)} {q : String}
    (h : s.ownerNode targets p = some q) :
    ∃ n ∈ s.nodes.rows, n.qualifiedName = q ∧ s.isRustType n = true ∧
      n.input.name = lastPart ['.'] p.2 := by
  unfold ownerNode at h
  split at h
  · cases h
  · rename_i candidates hlookup
    have hq : q ∈ candidates := by
      split at h
      · rename_i only honly
        obtain rfl := Option.some.inj h
        refine List.mem_of_mem_filter (p := fun qualified => fileOf qualified = p.1) ?_
        rw [honly]
        exact List.mem_singleton_self _
      · rcases Option.or_eq_some_iff.mp h with h | ⟨-, h⟩
        · rcases Option.or_eq_some_iff.mp h with h | ⟨-, h⟩
          · obtain ⟨found, hfound, rfl⟩ := Option.map_eq_some_iff.mp h
            exact mem_of_resolveViaImports _ _ hfound
          · exact mem_of_onlyInNamedModule h
        · exact mem_of_onlyInPackage h
      · cases h
    rw [rustTypeIndex, lookup_multimap] at hlookup
    split at hlookup
    · obtain rfl := Option.some.inj hlookup
      obtain ⟨pair, hpair, rfl⟩ := List.mem_map.mp hq
      obtain ⟨hpair, hname⟩ := List.mem_filter.mp hpair
      obtain ⟨n, hn, rfl⟩ := List.mem_map.mp hpair
      obtain ⟨hn, htype⟩ := List.mem_filter.mp hn
      exact ⟨n, hn, rfl, htype, of_decide_eq_true hname⟩
    · cases hlookup

theorem isNode_of_ownerNode {targets : Dict String (List String)} {q : String}
    (h : s.ownerNode targets p = some q) : s.isNode q = true := by
  obtain ⟨n, hn, rfl, -⟩ := rustType_of_ownerNode h
  exact isNode_iff.mpr (List.mem_map_of_mem hn)

def importsFrom (s : Store) : List EdgeRow := s.edges.rows.filter fun r => r.kind = "IMPORTS_FROM"

theorem filter_importsFrom (s : Store) (p : EdgeRow → Bool) :
    (s.edges.rows.filter fun r => decide (r.kind = "IMPORTS_FROM") && p r) =
      s.importsFrom.filter p := by
  rw [importsFrom, List.filter_filter]
  exact List.filter_congr fun r _ => Bool.and_comm _ _

theorem importReads_congr (himports : s'.importsFrom = s.importsFrom) :
    s'.importReads = s.importReads := by
  unfold importReads
  simp only [Bool.and_assoc, filter_importsFrom, himports]

theorem importTargetsConn_congr (himports : s'.importsFrom = s.importsFrom) :
    s'.importTargetsConn = s.importTargetsConn := by
  funext o fuel
  rw [importTargetsConn, importTargetsConn, importReads_congr himports]

theorem symbolVisibility_congr (hnodes : s'.nodes = s.nodes)
    (himports : s'.importsFrom = s.importsFrom) : s'.symbolVisibility = s.symbolVisibility := by
  have himported : s'.importedNamespaces = s.importedNamespaces := by
    unfold importedNamespaces
    rw [filter_importsFrom, filter_importsFrom, himports]
  rw [symbolVisibility, symbolVisibility, himported, declaredNamespaces, declaredNamespaces, hnodes]

theorem ownerNode_congr {targets targets' : Dict String (List String)}
    (hnodes : s'.nodes = s.nodes) (himports : s'.importsFrom = s.importsFrom)
    (h : ∀ file x, x ∈ targets.getD file [] ↔ x ∈ targets'.getD file []) :
    s'.ownerNode targets' = s.ownerNode targets := by
  have hindex : s'.rustTypeIndex = s.rustTypeIndex := by
    have htype : s'.isRustType = s.isRustType := by
      funext n
      rw [isRustType, isRustType, hnodes]
    rw [rustTypeIndex, rustTypeIndex, hnodes, htype]
  funext p
  unfold ownerNode
  rw [hindex, symbolVisibility_congr hnodes himports]
  simp only [resolveViaImports_congr h]

/-! ## A run, edge by edge -/

section Run

variable {render : Json → String} {o : Orders String} {fuel n : Nat} {s1 : Store}
  {targets targets' : Dict String (List String)}

def movedRow (targets : Dict String (List String)) (s : Store) (r : EdgeRow) : EdgeRow :=
  s.foreignOwners.foldl (s.moveRow (s.ownerNode targets)) r

theorem movedRow_cases (targets : Dict String (List String)) (s : Store) (r : EdgeRow) :
    movedRow targets s r = r ∨
      ∃ p q, s.isNode (p.1 ++ "::" ++ p.2) = false ∧ s.ownerNode targets p = some q ∧
        s.ownedBy p r = true ∧ movedRow targets s r = movedTo q r := by
  rcases foldl_moveRow_cases (fun _ => isNode_of_foreignOwners) (fun _ _ => isNode_of_ownerNode) r
    with ⟨heq, -⟩ | ⟨p, hp, q, howner, hown, heq⟩
  · exact .inl heq
  · exact .inr ⟨p, q, isNode_of_foreignOwners hp, howner, hown, heq⟩

theorem id_movedRow (r : EdgeRow) : (movedRow targets s r).id = r.id := by
  rcases movedRow_cases targets s r with heq | ⟨_, _, -, -, -, heq⟩
  · rw [heq]
  · rw [heq, movedTo]

theorem movedRow_of_imports (hkind : r.kind = "IMPORTS_FROM") : movedRow targets s r = r := by
  rcases movedRow_cases targets s r with heq | ⟨p, _, -, -, hown, -⟩
  · exact heq
  · rcases (ownedBy_iff.mp hown).2 with ⟨hkind', -⟩ | ⟨hkind', -⟩
    · exact absurd (hkind.symm.trans hkind') (by decide)
    · exact absurd (hkind.symm.trans hkind') (by decide)

theorem importsFrom_of_moved (hrows : s'.edges.rows = s.edges.rows.map (movedRow targets s)) :
    s'.importsFrom = s.importsFrom := by
  rw [importsFrom, hrows, importsFrom]
  refine filter_map_of_fixed (fun r _ => ?_) fun r _ hkind =>
    movedRow_of_imports (of_decide_eq_true hkind)
  rcases movedRow_cases targets s r with heq | ⟨_, _, -, -, -, heq⟩
  · rw [heq]
  · rw [heq, movedTo]

theorem movedRow_of_moved (hnodes : s'.nodes = s.nodes)
    (hrows : s'.edges.rows = s.edges.rows.map (movedRow targets s))
    (htargets : ∀ file x, x ∈ targets.getD file [] ↔ x ∈ targets'.getD file [])
    (hr : r ∈ s'.edges.rows) : movedRow targets' s' r = r := by
  have howners : ∀ p ∈ s'.foreignOwners, p ∈ s.foreignOwners := by
    refine fun p => foreignOwners_subset hnodes fun r' hr' hnode => ?_
    rw [hrows] at hr'
    obtain ⟨r0, hr0, rfl⟩ := List.mem_map.mp hr'
    rcases movedRow_cases targets s r0 with heq | ⟨_, q, -, howner, -, heq⟩
    · rw [heq]
      exact hr0
    · rw [heq, movedTo, isNode_of_ownerNode howner] at hnode
      cases hnode
  rw [hrows] at hr
  obtain ⟨r0, -, rfl⟩ := List.mem_map.mp hr
  rw [movedRow, ownerNode_congr hnodes (importsFrom_of_moved hrows) htargets, moveRow_congr hnodes]
  exact foldl_fixed fun p hp => moveRow_foldl (fun _ => isNode_of_foreignOwners)
    (fun _ _ => isNode_of_ownerNode) (howners p hp) r0

theorem linkForeignImplMembers_rows (h : s.linkForeignImplMembers render o fuel = some (s1, n)) :
    ∃ targets, (s.restoreOrphanedEdges render).importTargetsConn o fuel = some targets ∧
      s1.nodes = s.nodes ∧
      s1.edges.rows = (s.restoreOrphanedEdges render).edges.rows.map
        (movedRow targets (s.restoreOrphanedEdges render)) := by
  obtain ⟨targets, htargets, heq⟩ := Option.map_eq_some_iff.mp h
  have hmoves := foldl_moveOwnerEdges ((s.restoreOrphanedEdges render).ownerNode targets)
    (s.restoreOrphanedEdges render).foreignOwners (s.restoreOrphanedEdges render, 0)
  rw [heq] at hmoves
  exact ⟨targets, htargets, hmoves.1, hmoves.2⟩

theorem not_orphaned_of_run (h : s.linkForeignImplMembers render o fuel = some (s1, n))
    (hr : r ∈ s1.edges.rows) : s1.orphaned r = false := by
  obtain ⟨targets, -, hnodes, hrows⟩ := linkForeignImplMembers_rows h
  have hisNode : s1.isNode = (s.restoreOrphanedEdges render).isNode := by
    funext q
    rw [isNode, hnodes]
    rfl
  rw [hrows] at hr
  obtain ⟨r0, hr0, rfl⟩ := List.mem_map.mp hr
  rw [restoreOrphanedEdges_rows] at hr0
  obtain ⟨r', -, rfl⟩ := List.mem_map.mp hr0
  rw [orphaned, hisNode]
  rcases movedRow_cases targets (s.restoreOrphanedEdges render) (restoreSource render s r')
    with heq | ⟨_, q, -, howner, -, heq⟩
  · rw [heq]
    exact not_orphaned_restoreSource render s r'
  · rw [heq, movedTo, isNode_of_ownerNode howner, Bool.not_true, Bool.and_false]

theorem linkForeignImplMembers_idem {o' : Orders String} {fuel' n' : Nat} {s2 : Store}
    (h : s.linkForeignImplMembers render o fuel = some (s1, n))
    (h' : s1.linkForeignImplMembers render o' fuel' = some (s2, n')) :
    s2.nodes = s1.nodes ∧ s2.edges.rows = s1.edges.rows := by
  obtain ⟨targets, htargets, hnodes, hrows⟩ := linkForeignImplMembers_rows h
  obtain ⟨targets', htargets', hnodes', hrows'⟩ := linkForeignImplMembers_rows h'
  have hstart := restoreOrphanedEdges_rows_of_not render
    fun r hr => not_orphaned_of_run h hr
  have hmoved : (s1.restoreOrphanedEdges render).edges.rows =
      (s.restoreOrphanedEdges render).edges.rows.map
        (movedRow targets (s.restoreOrphanedEdges render)) := hstart.trans hrows
  obtain ⟨reads, hsome, -⟩ := Option.bind_eq_some_iff.mp htargets
  rw [importTargetsConn_congr (importsFrom_of_moved hmoved)] at htargets'
  have hsame := ((importTargetsConn_least hsome).2 o fuel targets htargets).2.2.2 o' fuel' targets'
    htargets'
  have hstartNodes : (s1.restoreOrphanedEdges render).nodes =
      (s.restoreOrphanedEdges render).nodes := hnodes
  have hfixed : ∀ r ∈ (s1.restoreOrphanedEdges render).edges.rows,
      movedRow targets' (s1.restoreOrphanedEdges render) r = r := fun r hr =>
    movedRow_of_moved hstartNodes hmoved (fun file => (hsame file).2) hr
  refine ⟨hnodes', hrows'.trans (Eq.trans ?_ hstart)⟩
  exact (List.map_congr_left hfixed).trans (List.map_id' _)

theorem mem_linkForeignImplMembers (h : s.linkForeignImplMembers render o fuel = some (s1, n))
    (hr : r ∈ s.edges.rows) (horphan : s.orphaned r = false)
    (hown : ∀ p, s.isNode (p.1 ++ "::" ++ p.2) = false → s.ownedBy p r = false) :
    r ∈ s1.edges.rows := by
  obtain ⟨targets, -, -, hrows⟩ := linkForeignImplMembers_rows h
  have hstays : movedRow targets (s.restoreOrphanedEdges render) r = r := by
    rcases movedRow_cases targets (s.restoreOrphanedEdges render) r with
      heq | ⟨p, _, hnode, -, howned, -⟩
    · exact heq
    · have hnot : (s.restoreOrphanedEdges render).ownedBy p r = false := hown p hnode
      rw [howned] at hnot
      cases hnot
  rw [hrows, restoreOrphanedEdges_rows]
  refine List.mem_map.mpr ⟨r, List.mem_map.mpr ⟨r, hr, restoreSource_of_not horphan⟩, hstays⟩

/-! ## The owner goes -/

/-- The edge is the same but for where it starts and the source saved in it. -/
structure SameMember (r r' : EdgeRow) : Prop where
  fields : r' = { r with source := r'.source, extra := r'.extra }
  extra : ∀ key, key ≠ movedFrom → r'.extra.get key = r.extra.get key

theorem SameMember.trans {r'' : EdgeRow} (h : SameMember r r') (h' : SameMember r' r'') :
    SameMember r r'' where
  fields := by
    rw [h'.fields, h.fields]
  extra key hkey := (h'.extra key hkey).trans (h.extra key hkey)

/-- SQL `NULL` or an object, as `extra` is written. -/
def objectOrNull (extra : Json) : Prop := extra = .null ∨ ∃ fields, extra = .obj fields

theorem sqlSet_eq_insert {extra : Json} (h : objectOrNull extra) (key : String) (value : Json) :
    extra.sqlSet key value = extra.insert key value := by
  rcases h with rfl | ⟨fields, rfl⟩ <;> rfl

theorem objectOrNull_insert (extra : Json) (key : String) (value : Json) :
    objectOrNull (extra.insert key value) := by
  obtain ⟨fields, heq, -⟩ := Json.fixed_insert extra key value
  exact .inr ⟨fields, heq⟩

theorem objectOrNull_restoreSource (h : objectOrNull r.extra) :
    objectOrNull (restoreSource render s r).extra := by
  unfold restoreSource
  split
  · rcases h with heq | ⟨fields, heq⟩
    · exact .inl (by rw [heq]; rfl)
    · exact .inr ⟨_, by rw [heq]; rfl⟩
  · exact h

theorem sameMember_movedTo (h : objectOrNull r.extra) (q : String) :
    SameMember r (movedTo q r) where
  fields := rfl
  extra key hkey := by
    rw [movedTo, sqlSet_eq_insert h, Json.get_insert, if_neg hkey]

theorem sameMember_restoreSource (render : Json → String) (s : Store) (r : EdgeRow) :
    SameMember r (restoreSource render s r) := by
  unfold restoreSource
  split
  · exact ⟨rfl, fun key hkey => by rw [Json.get_erase, if_neg hkey]⟩
  · exact ⟨rfl, fun _ _ => rfl⟩

theorem ownedBy_of_sameMember (hnodes : ∀ m ∈ s'.nodes.rows, m ∈ s.nodes.rows)
    (hsame : SameMember r r') (hsource : r'.source = r.source) (h : s'.ownedBy p r' = true) :
    s.ownedBy p r = true := by
  have hextra := Json.has_congr (hsame.extra "impl_target" (by decide))
  rw [ownedBy_iff, hsource, hextra, hsame.fields] at h
  rw [ownedBy_iff]
  refine ⟨h.1, h.2.imp (fun ⟨hkind, hfile, m, hm, hrest⟩ => ?_) id⟩
  exact ⟨hkind, hfile, m, hnodes m hm, hrest⟩

theorem source_restoreSource_movedTo (render : Json → String) (h : objectOrNull r.extra)
    {q : String}
    (hnode : s.isNode q = false) : (restoreSource render s (movedTo q r)).source = r.source := by
  have hget : (r.extra.sqlSet movedFrom (.str r.source)).get movedFrom = some (.str r.source) := by
    rw [sqlSet_eq_insert h, Json.get_insert, if_pos rfl]
  have horphan : s.orphaned (movedTo q r) = true := by
    rw [orphaned, movedTo, Json.has, hget, hnode]
    rfl
  rw [restoreSource, horphan, if_pos rfl, movedTo, hget]
  rfl

/-- An edge that a run moved and whose owner is then removed starts where it did before, or at
another Rust type of the owner's name, with the source it had saved. -/
theorem linkForeignImplMembers_restores {o' : Orders String} {fuel' n' : Nat} {s2 : Store}
    {r1 : EdgeRow} (h : s.linkForeignImplMembers render o fuel = some (s1, n))
    (hr : r ∈ s.edges.rows) (horphan : s.orphaned r = false) (hextra : objectOrNull r.extra)
    (hr1 : r1 ∈ s1.edges.rows) (hid : r1.id = r.id) (hmoved : r1.source ≠ r.source)
    (h' : (s1.withoutNode r1.source).linkForeignImplMembers render o' fuel' = some (s2, n')) :
    ∃ r2 ∈ s2.edges.rows, SameMember r r2 ∧
      (r2.source = r.source ∨
        r2.extra.getStr movedFrom = some r.source ∧ r2.source ≠ r1.source ∧
          ∃ m ∈ s.nodes.rows, m.qualifiedName = r1.source ∧
            ∃ m' ∈ s2.nodes.rows, m'.qualifiedName = r2.source ∧ s2.isRustType m' = true ∧
              m'.input.name = m.input.name) := by
  obtain ⟨targets, -, hnodes, hrows⟩ := linkForeignImplMembers_rows h
  obtain ⟨targets', -, hnodes', hrows'⟩ := linkForeignImplMembers_rows h'
  obtain ⟨p, q, howner, hown, rfl⟩ : ∃ p q, (s.restoreOrphanedEdges render).ownerNode targets p =
      some q ∧ s.ownedBy p r = true ∧ r1 = movedTo q r := by
    rw [hrows, restoreOrphanedEdges_rows] at hr1
    obtain ⟨r', hr', rfl⟩ := List.mem_map.mp hr1
    obtain ⟨r0, hr0, rfl⟩ := List.mem_map.mp hr'
    rw [id_movedRow, id_restoreSource] at hid
    obtain rfl := row_eq_of_id hr0 hr hid
    rw [restoreSource_of_not horphan] at hmoved ⊢
    rcases movedRow_cases targets (s.restoreOrphanedEdges render) r0 with
      heq | ⟨p, q, -, howner, hown, heq⟩
    · exact absurd (congrArg EdgeRow.source heq) hmoved
    · exact ⟨p, q, howner, hown, heq⟩
  obtain ⟨m, hm, hmq, -, hmname⟩ := rustType_of_ownerNode howner
  have hgone : (s1.withoutNode q).isNode q = false := not_isNode_withoutNode s1 q
  have hrestored := source_restoreSource_movedTo render hextra hgone
  have hsame := (sameMember_movedTo hextra q).trans
    (sameMember_restoreSource render (s1.withoutNode q) (movedTo q r))
  have hobject : objectOrNull (restoreSource render (s1.withoutNode q) (movedTo q r)).extra :=
    objectOrNull_restoreSource (by
      rw [movedTo, sqlSet_eq_insert hextra]
      exact objectOrNull_insert _ _ _)
  generalize hr' : restoreSource render (s1.withoutNode q) (movedTo q r) = r' at *
  refine ⟨movedRow targets' ((s1.withoutNode q).restoreOrphanedEdges render) r', ?_, ?_⟩
  · rw [hrows', restoreOrphanedEdges_rows]
    exact List.mem_map_of_mem (hr' ▸ List.mem_map_of_mem hr1)
  rcases movedRow_cases targets' ((s1.withoutNode q).restoreOrphanedEdges render) r' with
    heq | ⟨p', q', -, howner', hown', heq⟩
  · rw [heq]
    exact ⟨hsame, .inl hrestored⟩
  · rw [heq]
    refine ⟨hsame.trans (sameMember_movedTo hobject q'), .inr ⟨?_, ?_, m, hm, hmq, ?_⟩⟩
    · rw [movedTo, hrestored, sqlSet_eq_insert hobject, Json.getStr_insert, if_pos rfl]
      rfl
    · rintro rfl
      have hnode := isNode_of_ownerNode howner'
      exact absurd (hnode.symm.trans hgone) (by decide)
    · obtain ⟨m', hm', hm'q, htype, hm'name⟩ := rustType_of_ownerNode howner'
      have hpp : p' = p := by
        refine ownedBy_unique (ownedBy_of_sameMember (fun n hn => ?_) hsame hrestored hown') hown
        have hn' : n ∈ (s1.withoutNode q).nodes.rows := hn
        exact hnodes ▸ (List.mem_filter.mp hn').1
      refine ⟨m', by rw [hnodes']; exact hm', hm'q, ?_, ?_⟩
      · rw [isRustType, hnodes']
        exact htype
      · rw [hm'name, hmname, hpp]

/-! ## Every run returns -/

theorem importReads_restoreOrphanedEdges (render : Json → String) (s : Store) :
    (s.restoreOrphanedEdges render).importReads = s.importReads := by
  have hkeys : ∀ r key, key ≠ movedFrom →
      (restoreSource render s r).extra.get key = r.extra.get key :=
    fun r => (sameMember_restoreSource render s r).extra
  have hfields : ∀ r, (restoreSource render s r).kind = r.kind ∧
      (restoreSource render s r).filePath = r.filePath ∧
      (restoreSource render s r).target = r.target := by
    intro r
    rw [(sameMember_restoreSource render s r).fields]
    exact ⟨rfl, rfl, rfl⟩
  have hread : readImport ∘ restoreSource render s = readImport := by
    funext r
    rw [Function.comp_apply, readImport, readImport, Json.flag, Json.flag, Json.truth, Json.truth,
      hkeys r "glob" (by decide), hkeys r "re_export" (by decide), (hfields r).2.1, (hfields r).2.2]
  have hselect : (fun r : EdgeRow => decide (r.kind = "IMPORTS_FROM") && r.extra.unset "path_use" &&
      r.extra.unset "package_import") ∘ restoreSource render s =
      fun r => decide (r.kind = "IMPORTS_FROM") && r.extra.unset "path_use" &&
        r.extra.unset "package_import" := by
    funext r
    rw [Function.comp_apply, Json.unset, Json.unset, Json.unset, Json.unset,
      hkeys r "path_use" (by decide), hkeys r "package_import" (by decide), (hfields r).1]
  rw [importReads, restoreOrphanedEdges_rows, List.filter_map, hselect, importReads]
  rw [List.mapM_map, hread]

theorem exists_linkForeignImplMembers {reads : List ImportRead} (render : Json → String)
    (hreads : s.importReads = some reads) :
    ∃ bound, ∀ fuel, bound ≤ fuel → ∀ o, ∃ result,
      s.linkForeignImplMembers render o fuel = some result := by
  rw [← importReads_restoreOrphanedEdges render] at hreads
  obtain ⟨bound, hbound⟩ := (importTargetsConn_least hreads).1
  refine ⟨bound, fun fuel hfuel o => ?_⟩
  obtain ⟨targets, htargets⟩ := hbound fuel hfuel o
  exact ⟨_, Option.map_eq_some_iff.mpr ⟨targets, htargets, rfl⟩⟩

theorem importReads_of_run (h : s.linkForeignImplMembers render o fuel = some (s1, n)) :
    s1.importReads = s.importReads := by
  obtain ⟨targets, -, hnodes, hrows⟩ := linkForeignImplMembers_rows h
  rw [importReads_congr (importsFrom_of_moved hrows), importReads_restoreOrphanedEdges]

/-- For a graph whose imports can be read the pass returns, and so it does on what it leaves,
with a node less or not. A second run changes nothing. A moved edge whose owner is removed
starts where it did, or at another Rust type of the owner's name. An edge that is no member
edge of a foreign owner stays as it is. -/
theorem linkForeignImplMembers_reverses {reads : List ImportRead} (render : Json → String)
    (hreads : s.importReads = some reads) :
    (∃ bound, ∀ fuel, bound ≤ fuel → ∀ o, ∃ result,
      s.linkForeignImplMembers render o fuel = some result) ∧
    ∀ o fuel s1 n, s.linkForeignImplMembers render o fuel = some (s1, n) →
      (s1.importReads = some reads ∧ ∀ q, (s1.withoutNode q).importReads = some reads) ∧
      (∀ o' fuel' s2 n', s1.linkForeignImplMembers render o' fuel' = some (s2, n') →
        s2.nodes = s1.nodes ∧ s2.edges.rows = s1.edges.rows) ∧
      (∀ r ∈ s.edges.rows, s.orphaned r = false → objectOrNull r.extra →
        ∀ r1 ∈ s1.edges.rows, r1.id = r.id → r1.source ≠ r.source → ∀ o' fuel' s2 n',
          (s1.withoutNode r1.source).linkForeignImplMembers render o' fuel' = some (s2, n') →
          ∃ r2 ∈ s2.edges.rows, SameMember r r2 ∧
            (r2.source = r.source ∨
              r2.extra.getStr movedFrom = some r.source ∧ r2.source ≠ r1.source ∧
                ∃ m ∈ s.nodes.rows, m.qualifiedName = r1.source ∧
                  ∃ m' ∈ s2.nodes.rows, m'.qualifiedName = r2.source ∧ s2.isRustType m' = true ∧
                    m'.input.name = m.input.name)) ∧
      ∀ r ∈ s.edges.rows, s.orphaned r = false →
        (∀ p : String × String, s.isNode (p.1 ++ "::" ++ p.2) = false → s.ownedBy p r = false) →
        r ∈ s1.edges.rows := by
  refine ⟨exists_linkForeignImplMembers render hreads, fun o fuel s1 n h => ⟨?_, ?_, ?_, ?_⟩⟩
  · have hreads' : s1.importReads = some reads := (importReads_of_run h).trans hreads
    exact ⟨hreads', fun q => hreads'⟩
  · exact fun o' fuel' s2 n' h' => linkForeignImplMembers_idem h h'
  · exact fun r hr horphan hextra r1 hr1 hid hmoved o' fuel' s2 n' h' =>
      linkForeignImplMembers_restores h hr horphan hextra hr1 hid hmoved h'
  · exact fun r hr horphan hown => mem_linkForeignImplMembers h hr horphan hown

end Run

/-- `impl Store` in `ops.rs`, which imports the type from `lib.rs`; another file may declare a
type of that name. -/
def implStore (others : List String) : Store where
  nodes := upsertNodes .empty
    (({ kind := "Function", name := "save", filePath := "src/ops.rs", language := "rust",
        parentName := some "Store" }, "", 0) ::
      ("src/lib.rs" :: others).map fun file =>
        ({ kind := "Class", name := "Store", filePath := file, language := "rust" }, "", 0))
  edges := [("CONTAINS", "src/ops.rs::Store.save"), ("IMPORTS_FROM", "src/lib.rs::Store")].foldl
    (fun t row => t.insert (EdgeInput.row
      { kind := row.1, source := "src/ops.rs", target := row.2,
        filePath := "src/ops.rs", line := 1 }
      (.obj []))) .empty

/-- The pass runs, the type of `lib.rs` goes, the pass runs. -/
def ownerGone (s : Store) : Option (Store × Store) :=
  (s.linkForeignImplMembers (fun _ => "") plainOrders 0).bind fun first =>
    ((first.1.withoutNode "src/lib.rs::Store").linkForeignImplMembers (fun _ => "") plainOrders
      0).map fun second => (first.1, second.1)

def sources (s : Store) : List String := s.edges.rows.map EdgeRow.source

theorem implStore_reverses :
    ∃ s1 s2, (implStore []).ownerGone = some (s1, s2) ∧ s1.sources ≠ (implStore []).sources ∧
      ∃ r ∈ (implStore []).edges.rows, ∃ r2 ∈ s2.edges.rows, SameMember r r2 ∧
        r2.source = r.source := by
  have hreads : (implStore []).importReads.isSome = true := by decide +kernel
  obtain ⟨reads, hreads⟩ := Option.isSome_iff_exists.mp hreads
  have hruns : (implStore []).ownerGone.any (fun runs => runs.1.sources ≠ (implStore []).sources &&
      runs.1.edges.rows.any (fun r1 => r1.id = 1 && r1.source = "src/lib.rs::Store") &&
      runs.2.edges.rows.all fun r2 => r2.source = "src/ops.rs") = true := by decide +kernel
  obtain ⟨⟨s1, s2⟩, hgone, hruns⟩ := (Option.any_eq_true _ _).mp hruns
  simp only [Bool.and_eq_true, decide_eq_true_eq, List.any_eq_true] at hruns
  obtain ⟨⟨hne, r1, hr1, hid, hsource⟩, hback⟩ := hruns
  obtain ⟨first, hfirst, hsecond⟩ := Option.bind_eq_some_iff.mp hgone
  obtain ⟨second, hagain, heq⟩ := Option.map_eq_some_iff.mp hsecond
  obtain ⟨rfl, rfl⟩ := Prod.mk.inj heq
  obtain ⟨-, -, hrestores, -⟩ :=
    (linkForeignImplMembers_reverses (fun _ => "") hreads).2 plainOrders 0 first.1 first.2 hfirst
  have hr : (implStore []).edges.rows.head (by decide) ∈ (implStore []).edges.rows :=
    List.head_mem _
  rw [← hsource] at hagain
  obtain ⟨r2, hr2, hsame, -⟩ := hrestores _ hr (by decide) (.inr ⟨[], rfl⟩) r1 hr1 hid
    (by rw [hsource]; decide) plainOrders 0 second.1 second.2 hagain
  exact ⟨first.1, second.1, hgone, hne, _, hr, r2, hr2, hsame,
    of_decide_eq_true (List.all_eq_true.mp hback r2 hr2)⟩

/-- With a second type of the name in the package the edge does not get its source back. -/
theorem not_restores_other_type :
    (implStore ["src/old.rs"]).ownerGone.map (fun runs => (runs.1.sources, runs.2.sources)) =
      some (["src/lib.rs::Store", "src/ops.rs"], ["src/old.rs::Store", "src/ops.rs"]) ∧
    (implStore ["src/old.rs"]).sources = ["src/ops.rs", "src/ops.rs"] := by decide +kernel

end Store

end Dagayn
