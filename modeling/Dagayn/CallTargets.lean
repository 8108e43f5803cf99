import Dagayn.TestedBy

/-!
# What the call passes leave alone

`Passed keep s s'` says what a pass may not do: change the nodes, a row of `keep`, or a
row of a kind that no pass writes. Every pass of `rewrite` shape has it for the rows it
does not write (`passed_rewrite`), and it composes, so the whole of
`resolve_bare_call_targets` has it for the rows that no pass writes (`Unwritten`).

A call that is settled, at a `file::symbol` node or in a package, is selected by no
pass but one: `resolve_reexported_targets` does not ask whether the edge is external.
`resolveBareCallTargets_keeps_iff` gives the exact condition.
-/

namespace Dagayn

theorem EdgeWrite.apply_kind (w : EdgeWrite) (r : EdgeRow) : (w.apply r).kind = r.kind := by
  cases w <;> rfl

namespace Store

variable {s s' s'' : Store} {r : EdgeRow}

theorem isNode_iff {q : String} : s.isNode q = true ↔ q ∈ s.nodes.names := by simp [isNode]

/-! ## One write -/

theorem mem_writeEdge {id : Nat} {w : EdgeWrite} :
    r ∈ (s.writeEdge id w).edges.rows ↔
      (r ∈ s.edges.rows ∧ r.id ≠ id) ∨
        ∃ r₀ ∈ s.edges.rows, r₀.id = id ∧ r = { w.apply r₀ with id := r₀.id } := by
  simp only [writeEdge, EdgeTable.updateWhere, List.mem_map, decide_eq_true_eq]
  constructor
  · rintro ⟨r₀, hr₀, rfl⟩
    by_cases hid : r₀.id = id
    · rw [if_pos hid]
      exact .inr ⟨r₀, hr₀, hid, rfl⟩
    · rw [if_neg hid]
      exact .inl ⟨hr₀, hid⟩
  · rintro (⟨hr, hid⟩ | ⟨r₀, hr₀, hid, rfl⟩)
    · exact ⟨r, hr, if_neg hid⟩
    · exact ⟨r₀, hr₀, if_pos hid⟩

theorem row_eq_of_id {a b : EdgeRow} (ha : a ∈ s.edges.rows) (hb : b ∈ s.edges.rows)
    (h : a.id = b.id) : a = b :=
  List.inj_on_of_nodup_map s.edges.ids_nodup ha hb h

theorem pairwise_filter_ids (s : Store) (p : EdgeRow → Bool) :
    (s.edges.rows.filter p).Pairwise (fun a b => a.id ≠ b.id) :=
  (List.pairwise_map.mp s.edges.ids_nodup).filter p

/-! ## Passes -/

/-- What holds across a pass: the nodes are the same, the rows of `keep` stay as they
are, and so do all rows that are neither calls, references nor bases, with none added. -/
structure Passed (keep : EdgeRow → Prop) (s s' : Store) : Prop where
  nodes : s'.nodes = s.nodes
  keeps : ∀ r ∈ s.edges.rows, keep r → r ∈ s'.edges.rows
  others : ∀ r, reexportKind r.kind = false → (r ∈ s'.edges.rows ↔ r ∈ s.edges.rows)

namespace Passed

variable {keep : EdgeRow → Prop}

theorem refl (s : Store) : Passed keep s s := ⟨rfl, fun _ h _ => h, fun _ _ => Iff.rfl⟩

theorem trans (h : Passed keep s s') (h' : Passed keep s' s'') : Passed keep s s'' where
  nodes := h'.nodes.trans h.nodes
  keeps r hr hk := h'.keeps r (h.keeps r hr hk) hk
  others r hk := (h'.others r hk).trans (h.others r hk)

theorem mono {keep' : EdgeRow → Prop} (h : Passed keep s s') (hk : ∀ r, keep' r → keep r) :
    Passed keep' s s' :=
  ⟨h.nodes, fun r hr hr' => h.keeps r hr (hk r hr'), h.others⟩

theorem tested (h : Passed keep s s') (hk : r.kind = "TESTED_BY") :
    r ∈ s'.edges.rows ↔ r ∈ s.edges.rows := h.others r (by rw [hk]; decide)

end Passed

theorem mem_writeEdge_of_ne {id : Nat} {w : EdgeWrite} (h : r.id ≠ id) :
    r ∈ (s.writeEdge id w).edges.rows ↔ r ∈ s.edges.rows := by
  rw [mem_writeEdge]
  constructor
  · rintro (⟨hr, -⟩ | ⟨r₀, -, hid, rfl⟩)
    · exact hr
    · exact absurd hid h
  · exact fun hr => .inl ⟨hr, h⟩

theorem mem_rewriteRows_of_ne {write : Store → EdgeRow → Option EdgeWrite} :
    ∀ (rows : List EdgeRow) (s : Store) (n : Nat),
      (∀ a ∈ rows, (∃ cur w, write cur a = some w) → r.id ≠ a.id) →
      (r ∈ (rewriteRows write rows (s, n)).1.edges.rows ↔ r ∈ s.edges.rows)
  | [], _, _, _ => Iff.rfl
  | a :: rows, s, n, hne => by
      have htail := fun b hb => hne b (List.mem_cons_of_mem a hb)
      cases hw : write s a with
      | none =>
          simp only [rewriteRows, hw]
          exact mem_rewriteRows_of_ne rows s n htail
      | some w =>
          simp only [rewriteRows, hw]
          rw [mem_rewriteRows_of_ne rows _ _ htail]
          exact mem_writeEdge_of_ne (hne a List.mem_cons_self ⟨s, w, hw⟩)

theorem rewriteRows_nodes {write : Store → EdgeRow → Option EdgeWrite} :
    ∀ (rows : List EdgeRow) (s : Store) (n : Nat),
      (rewriteRows write rows (s, n)).1.nodes = s.nodes
  | [], _, _ => rfl
  | a :: rows, s, n => by
      cases hw : write s a with
      | none => simp only [rewriteRows, hw]; exact rewriteRows_nodes rows s n
      | some w =>
          simp only [rewriteRows, hw]
          exact rewriteRows_nodes rows (s.writeEdge a.id w) (n + w.moves)

theorem Passed.writeEdge {keep : EdgeRow → Prop} {cur : Store} (h : Passed keep s cur)
    (hr : r ∈ s.edges.rows) (hkind : reexportKind r.kind = true) (hkeep : ¬ keep r)
    (w : EdgeWrite) : Passed keep s (cur.writeEdge r.id w) where
  nodes := h.nodes
  keeps a ha hk := (mem_writeEdge_of_ne fun hid => hkeep (row_eq_of_id ha hr hid ▸ hk)).mpr
    (h.keeps a ha hk)
  others a hk := by
    constructor
    · intro ha
      rcases mem_writeEdge.mp ha with ⟨ha, -⟩ | ⟨r₀, hr₀, hid, rfl⟩
      · exact (h.others a hk).mp ha
      · have hk₀ : reexportKind r₀.kind = false := w.apply_kind r₀ ▸ hk
        rw [row_eq_of_id ((h.others r₀ hk₀).mp hr₀) hr hid, hkind] at hk₀
        cases hk₀
    · intro ha
      refine (mem_writeEdge_of_ne fun hid => ?_).mpr ((h.others a hk).mpr ha)
      rw [row_eq_of_id ha hr hid, hkind] at hk
      cases hk

theorem Passed.rewriteRows {keep : EdgeRow → Prop} {write : Store → EdgeRow → Option EdgeWrite} :
    ∀ (rows : List EdgeRow) (cur : Store) (n : Nat), Passed keep s cur →
      (∀ r ∈ rows, r ∈ s.edges.rows ∧ reexportKind r.kind = true ∧
        (keep r → ∀ cur, Passed keep s cur → write cur r = none)) →
      Passed keep s (Store.rewriteRows write rows (cur, n)).1
  | [], _, _, h, _ => h
  | a :: rows, cur, n, h, hrows => by
      have htail := fun r hr => hrows r (List.mem_cons_of_mem a hr)
      obtain ⟨ha, hkind, hkeep⟩ := hrows a List.mem_cons_self
      cases hw : write cur a with
      | none =>
          simp only [Store.rewriteRows, hw]
          exact Passed.rewriteRows rows cur n h htail
      | some w =>
          simp only [Store.rewriteRows, hw]
          have hnot : ¬ keep a := fun hk => by
            rw [hkeep hk cur h] at hw
            cases hw
          exact Passed.rewriteRows rows _ _ (h.writeEdge ha hkind hnot w) htail

/-- A pass leaves the rows of `keep` alone where it writes none of them, in the store as its
earlier writes leave it. -/
theorem passed_rewrite {keep : EdgeRow → Prop} {select : EdgeRow → Bool}
    {write : Store → EdgeRow → Option EdgeWrite}
    (h : ∀ r ∈ s.edges.rows, select r = true → reexportKind r.kind = true ∧
      (keep r → ∀ cur, Passed keep s cur → write cur r = none)) :
    Passed keep s (s.rewrite select write).1 :=
  Passed.rewriteRows _ s 0 (.refl s) fun r hr =>
    ⟨(List.mem_filter.mp hr).1, h r (List.mem_filter.mp hr).1 (List.mem_filter.mp hr).2⟩

theorem mem_rewriteRows (write : EdgeRow → Option EdgeWrite) {w : EdgeWrite}
    (hw : write r = some w) : ∀ (rows : List EdgeRow) (s : Store) (n : Nat), r ∈ rows →
      r ∈ s.edges.rows → rows.Pairwise (fun a b => a.id ≠ b.id) →
      { w.apply r with id := r.id } ∈ (rewriteRows (fun _ => write) rows (s, n)).1.edges.rows
  | a :: rows, s, n, hr, hmem, hnodup => by
      obtain ⟨hne, hnodup⟩ := List.pairwise_cons.mp hnodup
      rcases List.mem_cons.mp hr with rfl | hr
      · simp only [rewriteRows, hw]
        -- the later rows have other ids
        refine (mem_rewriteRows_of_ne (r := { w.apply r with id := r.id }) rows _ _
          fun b hb _ => hne b hb).mpr ?_
        exact mem_writeEdge.mpr (.inr ⟨r, hmem, rfl, rfl⟩)
      · cases hwa : write a with
        | none =>
            simp only [rewriteRows, hwa]
            exact mem_rewriteRows write hw rows s n hr hmem hnodup
        | some w' =>
            simp only [rewriteRows, hwa]
            refine mem_rewriteRows write hw rows _ _ hr ?_ hnodup
            exact (mem_writeEdge_of_ne fun hid => hne r hr hid.symm).mpr hmem

def rewritten (r : EdgeRow) : Option EdgeWrite → EdgeRow
  | some w => { w.apply r with id := r.id }
  | none => r

theorem rewritten_id (r : EdgeRow) (w : Option EdgeWrite) : (rewritten r w).id = r.id := by
  cases w <;> rfl

theorem rewritten_kind (r : EdgeRow) (w : Option EdgeWrite) : (rewritten r w).kind = r.kind := by
  cases w with
  | none => rfl
  | some w => exact w.apply_kind r

theorem rewriteRows_map (write : EdgeRow → Option EdgeWrite) : ∀ (rows : List EdgeRow) (s : Store)
    (n : Nat), rows.Pairwise (fun a b => a.id ≠ b.id) →
      (rewriteRows (fun _ => write) rows (s, n)).1.edges.rows = s.edges.rows.map fun r =>
        match rows.find? fun a => a.id = r.id with
        | some a => rewritten r (write a)
        | none => r
  | [], s, n, _ => (List.map_id _).symm
  | a :: rows, s, n, hnodup => by
      obtain ⟨hne, hnodup⟩ := List.pairwise_cons.mp hnodup
      have hnone : rows.find? (fun b => decide (b.id = a.id)) = none :=
        List.find?_eq_none.mpr fun b hb hid => hne b hb (of_decide_eq_true hid).symm
      cases hwa : write a with
      | none =>
          simp only [rewriteRows, hwa]
          rw [rewriteRows_map write rows s n hnodup]
          refine List.map_congr_left fun r _ => ?_
          rw [List.find?_cons]
          by_cases hid : a.id = r.id
          · rw [← hid, hnone, decide_eq_true rfl]
            simp only [hwa, rewritten]
          · rw [decide_eq_false hid]
      | some w =>
          simp only [rewriteRows, hwa]
          rw [rewriteRows_map write rows _ _ hnodup]
          simp only [writeEdge, EdgeTable.updateWhere, List.map_map]
          refine List.map_congr_left fun r _ => ?_
          rw [Function.comp_apply, List.find?_cons]
          by_cases hid : a.id = r.id
          · simp only [hid.symm, decide_true, if_true, hnone, hwa, rewritten]
          · have hid' : ¬ r.id = a.id := fun heq => hid heq.symm
            simp only [hid, hid', decide_false, if_false, Bool.false_eq_true]

/-- A pass whose decision does not read the store decides on each row by itself, in
whatever order it takes the rows. -/
theorem rewriteRows_of_perm {rows : List EdgeRow} {select : EdgeRow → Bool}
    (hperm : rows.Perm (s.edges.rows.filter select)) (write : EdgeRow → Option EdgeWrite)
    (n : Nat) : (rewriteRows (fun _ => write) rows (s, n)).1.edges.rows =
      s.edges.rows.map fun r => if select r then rewritten r (write r) else r := by
  have hids : rows.Pairwise fun a b => a.id ≠ b.id :=
    (hperm.pairwise_iff fun hne => hne.symm).mpr (pairwise_filter_ids s select)
  rw [rewriteRows_map write rows s n hids]
  refine List.map_congr_left fun r hr => ?_
  split
  · rename_i a ha
    have hid : a.id = r.id := by simpa using List.find?_some ha
    obtain ⟨ha, hsel⟩ := List.mem_filter.mp (hperm.mem_iff.mp (List.mem_of_find?_eq_some ha))
    obtain rfl := row_eq_of_id ha hr hid
    rw [if_pos hsel]
  · rename_i hnone
    rw [if_neg fun hsel => List.find?_eq_none.mp hnone r
      (hperm.mem_iff.mpr (List.mem_filter.mpr ⟨hr, hsel⟩)) (decide_eq_true rfl)]

theorem rewrite_rows (s : Store) (select : EdgeRow → Bool) (write : EdgeRow → Option EdgeWrite) :
    (s.rewrite select fun _ => write).1.edges.rows =
      s.edges.rows.map fun r => if select r then rewritten r (write r) else r :=
  rewriteRows_of_perm (List.Perm.refl _) write 0

theorem rewrite_eq_self {select : EdgeRow → Bool} {write : Store → EdgeRow → Option EdgeWrite}
    (h : ∀ r ∈ s.edges.rows, select r = true → write s r = none) :
    s.rewrite select write = (s, 0) := by
  have hnone : ∀ r ∈ s.edges.rows.filter select, write s r = none := fun r hr =>
    h r (List.mem_filter.mp hr).1 (List.mem_filter.mp hr).2
  rw [rewrite]
  generalize s.edges.rows.filter select = rows at hnone
  induction rows with
  | nil => rfl
  | cons a rows ih =>
      simp only [rewriteRows, hnone a List.mem_cons_self]
      exact ih fun r hr => hnone r (List.mem_cons_of_mem a hr)

theorem filter_map_of_fixed {p : EdgeRow → Bool} {f : EdgeRow → EdgeRow} {rows : List EdgeRow}
    (hread : ∀ r ∈ rows, p (f r) = p r) (hfixed : ∀ r ∈ rows, p r = true → f r = r) :
    (rows.map f).filter p = rows.filter p := by
  have hsame : rows.filter (p ∘ f) = rows.filter p := List.filter_congr hread
  rw [List.filter_map, hsame]
  exact (List.map_congr_left fun r hr =>
    hfixed r (List.mem_filter.mp hr).1 (List.mem_filter.mp hr).2).trans (List.map_id' _)

/-! ## The call passes leave settled calls alone -/

/-- A call at a `file::symbol` node. -/
def onNode (nodes : NodeTable) (r : EdgeRow) : Prop :=
  r.kind = "CALLS" ∧ hasScope r.target = true ∧ r.target ∈ nodes.names

/-- A call at a `file::symbol` node, or in a package. -/
def settled (nodes : NodeTable) (r : EdgeRow) : Prop :=
  onNode nodes r ∨ (r.kind = "CALLS" ∧ r.external = true)

/-- No pass that binds calls would write the row in this store. -/
structure Unwritten (h : CallHeuristics) (s : Store) (r : EdgeRow) : Prop where
  resolved : s.unresolvedCall r = false
  bound : ∀ b, bindable b r = true → looksLikeFileTarget r.target = false → h.bind b s r = none
  typed : rustTyped r = true → h.enumVariant s r = none ∧ h.deref s r = none
  method : untyped r = true → h.stdMethod s r = none ∧ ∀ c, h.observed s r c = false

/-- No pass would write a row of `keep`, now or when the passes before have run. -/
def Leaves (h : CallHeuristics) (keep : EdgeRow → Prop) (s : Store) : Prop :=
  ∀ r, keep r → ∀ cur, Passed keep s cur → Unwritten h cur r

/-- A pass, or several, that leaves such rows alone. -/
def Settling (h : CallHeuristics) (keep : EdgeRow → Prop) (s s' : Store) : Prop :=
  Leaves h keep s → Passed keep s s'

section

variable {h : CallHeuristics} {keep : EdgeRow → Prop}

theorem Leaves.next (hl : Leaves h keep s) (hp : Passed keep s s') : Leaves h keep s' :=
  fun r hk cur hcur => hl r hk cur (hp.trans hcur)

theorem Settling.trans (ha : Settling h keep s s') (hb : Settling h keep s' s'') :
    Settling h keep s s'' := fun hl => (ha hl).trans (hb (hl.next (ha hl)))

theorem kind_of_bareCall (hbare : bareCall r = true) : reexportKind r.kind = true := by
  simp only [bareCall, Bool.and_eq_true, decide_eq_true_eq] at hbare
  rw [hbare.1.1]
  decide

theorem unresolvedCall_congr (hn : s'.nodes = s.nodes) : s'.unresolvedCall = s.unresolvedCall := by
  funext r
  rw [unresolvedCall, unresolvedCall, isNode, isNode, hn]

theorem not_bareCall_of_scope (hscope : hasScope r.target = true) : bareCall r = false := by
  simp [bareCall, hscope]

theorem not_bareCall_of_external (hext : r.external = true) : bareCall r = false := by
  simp [bareCall, hext]

theorem unwritten_of_not_bareCall (hcall : s.unresolvedCall r = false)
    (hbind : ∀ b, bindable b r = false) (hbare : bareCall r = false) : Unwritten h s r where
  resolved := hcall
  bound b hb := by rw [hbind b] at hb; cases hb
  typed ht := by simp [rustTyped, hbare] at ht
  method hm := by simp [untyped, hbare] at hm

theorem unwritten_of_scope (hscope : hasScope r.target = true) (hnode : s.isNode r.target = true) :
    Unwritten h s r :=
  unwritten_of_not_bareCall (by simp [unresolvedCall, hnode])
    (fun b => by simp [bindable, hscope]) (not_bareCall_of_scope hscope)

theorem unwritten_of_external (hext : r.external = true) : Unwritten h s r :=
  unwritten_of_not_bareCall (by simp [unresolvedCall, hext])
    (fun b => by simp [bindable, hext]) (not_bareCall_of_external hext)

/-- A call at a file that is a node, on no receiver the passes look at. -/
theorem unwritten_of_file (hnode : s.isNode r.target = true)
    (hfile : looksLikeFileTarget r.target = true) (htyped : r.extra.has "receiver_type" = false)
    (huntyped : r.extra.isOne "receiver_unknown" = false) : Unwritten h s r where
  resolved := by simp [unresolvedCall, hnode]
  bound b _ hnot := by rw [hfile] at hnot; cases hnot
  typed ht := by simp [rustTyped, htyped] at ht
  method hm := by simp [untyped, huntyped] at hm

theorem leaves_settled : Leaves h (settled s.nodes) s := by
  rintro r (⟨-, hscope, hnode⟩ | ⟨-, hext⟩) cur hp
  · exact unwritten_of_scope hscope (isNode_iff.mpr (hp.nodes ▸ hnode))
  · exact unwritten_of_external hext

theorem settling_rewrite {select : EdgeRow → Bool} {write : Store → EdgeRow → Option EdgeWrite}
    (hsel : ∀ r, select r = true → reexportKind r.kind = true ∧
      ∀ cur, cur.nodes = s.nodes → Unwritten h cur r → write cur r = none) :
    Settling h keep s (s.rewrite select write).1 := fun hl =>
  passed_rewrite fun r _ hr =>
    ⟨(hsel r hr).1, fun hk cur hp => (hsel r hr).2 cur hp.nodes (hl r hk cur hp)⟩

/-- A pass over calls that are not resolved. -/
theorem settling_unresolved {select : EdgeRow → Bool}
    {write : Store → EdgeRow → Option EdgeWrite}
    (hsel : ∀ r, select r = true → s.unresolvedCall r = true) :
    Settling h keep s (s.rewrite select write).1 := by
  refine settling_rewrite fun r hr => ⟨?_, fun cur hn hun => ?_⟩
  · have hcall := hsel r hr
    simp only [unresolvedCall, Bool.and_eq_true, decide_eq_true_eq] at hcall
    rw [hcall.1.1]
    decide
  · have hcall := hun.resolved
    rw [unresolvedCall_congr hn, hsel r hr] at hcall
    cases hcall

end

section

variable (s) (h : CallHeuristics) {keep : EdgeRow → Prop}

theorem settling_shape : Settling h keep s (resolveShapeReceivers h s).1 :=
  settling_unresolved fun _ hsel => ((Bool.and_eq_true ..).mp hsel).1

theorem settling_bind (b : Bool) : Settling h keep s (bindBareCallTargets h b s).1 := by
  refine settling_rewrite fun r hsel => ⟨?_, fun cur _ hun => ?_⟩
  · simp only [bindable, Bool.and_eq_true, Bool.or_eq_true, decide_eq_true_eq] at hsel
    rcases hsel.1.1.1.1.1 with hk | ⟨hk, -⟩ <;> rw [hk] <;> decide
  · split
    · rfl
    · rename_i hfile
      rw [hun.bound b hsel (Bool.not_eq_true _ ▸ hfile)]
      rfl

theorem settling_enum : Settling h keep s (resolveEnumVariantCalls h s).1 := by
  refine settling_rewrite fun r hsel => ⟨?_, fun cur _ hun => ?_⟩
  · simp only [rustTyped, Bool.and_eq_true] at hsel
    exact kind_of_bareCall hsel.1.1
  · rw [(hun.typed hsel).1]
    rfl

theorem settling_field : Settling h keep s (resolveFieldReceivers h s).1 :=
  settling_unresolved fun _ hsel => ((Bool.and_eq_true ..).mp hsel).1

theorem settling_goDeclared : Settling h keep s (resolveGoDeclaredReceivers h s).1 := by
  refine settling_unresolved fun r hsel => ?_
  simp only [Bool.and_eq_true] at hsel
  exact hsel.1.1

theorem settling_pending : Settling h keep s (resolvePendingCalls h s).1 :=
  settling_unresolved fun _ hsel => ((Bool.and_eq_true ..).mp hsel).1

theorem settling_returnedRound : Settling h keep s (returnedRound h s).1 :=
  (settling_field s h).trans <| (settling_goDeclared _ h).trans <|
    (settling_shape _ h).trans (settling_pending _ h)

theorem settling_returnedRounds : ∀ (n : Nat) (s : Store),
    Settling h keep s (returnedRounds h n s)
  | 0, s => fun _ => Passed.refl s
  | n + 1, s => by
      simp only [returnedRounds]
      split
      · exact settling_returnedRound s h
      · exact (settling_returnedRound s h).trans (settling_returnedRounds n _)

theorem settling_pyo3 : Settling h keep s (resolvePyo3Methods h s).1 := by
  refine settling_unresolved fun r hsel => ?_
  simp only [Bool.and_eq_true] at hsel
  exact hsel.1.1

theorem settling_glob (hs : markGlobImportedExternalCalls h s = some s') :
    Settling h keep s s' := by
  unfold markGlobImportedExternalCalls at hs
  split at hs
  · obtain rfl : s = s' := by simpa using hs
    exact fun _ => Passed.refl s
  · split at hs
    · obtain rfl := Option.some.inj hs
      exact settling_unresolved fun _ hsel => ((Bool.and_eq_true ..).mp hsel).1
    · cases hs

theorem settling_deref : Settling h keep s (markDerefCalls h s).1 := by
  refine settling_rewrite fun r hsel => ⟨?_, fun cur _ hun => ?_⟩
  · simp only [rustTyped, Bool.and_eq_true] at hsel
    exact kind_of_bareCall hsel.1.1
  · rw [(hun.typed hsel).2]
    rfl

theorem settling_stdlib : Settling h keep s (markStdlibMethodCalls h s).1 := by
  refine settling_rewrite fun r hsel => ⟨?_, fun cur _ hun => ?_⟩
  · exact kind_of_bareCall ((Bool.and_eq_true ..).mp hsel).1
  · rw [(hun.method hsel).1]
    rfl

theorem settling_observed (hs : markObservedMethodCalls h s = some s') :
    Settling h keep s s' := by
  unfold markObservedMethodCalls at hs
  split at hs
  · obtain rfl := Option.some.inj hs
    refine settling_rewrite fun r hsel => ⟨?_, fun cur _ hun => ?_⟩
    · exact kind_of_bareCall ((Bool.and_eq_true ..).mp hsel).1
    · have hnone : s.observedCalls.find? (h.observed cur r) = none :=
        List.find?_eq_none.mpr fun c _ => by simp [(hun.method hsel).2 c]
      rw [hnone]
      rfl
  · cases hs

theorem settling_typedCallPasses (hs : typedCallPasses h s = some s') :
    Settling h keep s s' := by
  simp only [typedCallPasses, Option.bind_eq_bind, Option.bind_eq_some_iff,
    Option.pure_def, Option.some.injEq] at hs
  obtain ⟨s₁, hglob, rfl⟩ := hs
  refine (settling_returnedRounds h 6 s).trans ((settling_pyo3 _ h).trans ?_)
  refine (settling_glob _ h hglob).trans ?_
  exact (settling_deref s₁ h).trans (settling_stdlib _ h)

theorem settling_resolveCalls (keep : EdgeRow → Prop) (hs : resolveCalls h s = some s') :
    ∃ s₁, s.resolveReexportedTargets = some s₁ ∧ Settling h keep s₁ s' := by
  simp only [resolveCalls, Option.bind_eq_bind, Option.bind_eq_some_iff,
    Option.pure_def, Option.some.injEq] at hs
  obtain ⟨s₁, hre, s₂, htyped, s₃, htyped', s₄, hobs, rfl⟩ := hs
  refine ⟨s₁, hre, (settling_shape s₁ h).trans ?_⟩
  refine (settling_bind _ h false).trans ((settling_enum _ h).trans ?_)
  refine (settling_typedCallPasses _ h htyped).trans ?_
  refine (settling_typedCallPasses _ h htyped').trans ?_
  refine (settling_bind _ h true).trans ((settling_observed _ h hobs).trans ?_)
  exact settling_returnedRounds h 6 s₄

end

/-! ## `TESTED_BY` rows follow, calls stay -/

/-- What `sync_tested_by_with_calls` does up to some group: other rows stay, and a
`TESTED_BY` row keeps all but its source, which is of before or one of its calls'. -/
structure Following (s cur : Store) : Prop where
  nodes : cur.nodes = s.nodes
  others : ∀ r, r.kind ≠ "TESTED_BY" → (r ∈ cur.edges.rows ↔ r ∈ s.edges.rows)
  tested : ∀ r ∈ cur.edges.rows, r.kind = "TESTED_BY" → ∃ r₀ ∈ s.edges.rows,
    r₀.id = r.id ∧ r₀.kind = r.kind ∧ r₀.target = r.target ∧ r₀.filePath = r.filePath ∧
    r₀.line = r.line ∧
    (r₀ = r ∨ ∃ c ∈ s.edges.rows, callOf r c = true ∧ c.target = r.source)

theorem Following.refl (s : Store) : Following s s where
  nodes := rfl
  others _ _ := Iff.rfl
  tested r hr _ := ⟨r, hr, rfl, rfl, rfl, rfl, rfl, .inl rfl⟩

theorem Following.row {cur : Store} (h : Following s cur) {tb : EdgeRow}
    (htb : tb ∈ s.edges.rows) (hkind : tb.kind = "TESTED_BY") (hr : r ∈ cur.edges.rows)
    (hid : r.id = tb.id) : r.kind = "TESTED_BY" ∧ r.target = tb.target ∧
      r.filePath = tb.filePath ∧ r.line = tb.line := by
  by_cases hk : r.kind = "TESTED_BY"
  · obtain ⟨r₀, hr₀, hid₀, -, ht, hf, hl, -⟩ := h.tested r hr hk
    obtain rfl := row_eq_of_id hr₀ htb (hid₀.trans hid)
    exact ⟨hk, ht.symm, hf.symm, hl.symm⟩
  · have := row_eq_of_id ((h.others r hk).mp hr) htb hid
    exact absurd (this ▸ hkind) hk

theorem mem_candidates {tb c : EdgeRow} (h : c ∈ s.candidates tb) :
    c ∈ s.edges.rows ∧ callOf tb c = true ∧ hasScope c.target = true := by
  have := mem_of_mem_keepFirst h
  simp only [List.mem_filter, Bool.and_eq_true] at this
  exact ⟨this.1, this.2.1.1, this.2.1.2⟩

theorem callOf_congr {a b c : EdgeRow} (ht : a.target = b.target)
    (hf : a.filePath = b.filePath) (hl : a.line = b.line) : callOf a c = callOf b c := by
  simp [callOf, ht, hf, hl]

theorem Following.syncGroup {cur : Store} (h : Following s cur) {tb : EdgeRow}
    (htb : tb ∈ s.edges.rows) (hkind : tb.kind = "TESTED_BY") :
    Following s (cur.syncGroup (tb, s.candidates tb)) := by
  unfold Store.syncGroup
  simp only
  split
  · rename_i c hc
    have hcand : c ∈ s.edges.rows ∧ callOf tb c = true ∧ hasScope c.target = true :=
      mem_candidates (by simp [hc])
    have hid : ∀ r ∈ cur.edges.rows, r.kind ≠ "TESTED_BY" → r.id ≠ tb.id :=
      fun r hr hk hid => hk (h.row htb hkind hr hid).1
    split
    · refine ⟨h.nodes, fun r hk => ?_, fun r hr hk => ?_⟩
      · rw [← h.others r hk]
        simp only [EdgeTable.deleteWhere, List.mem_filter, Bool.not_eq_true',
          decide_eq_false_iff_not, and_iff_left_iff_imp]
        exact fun hr => hid r hr hk
      · exact h.tested r (List.mem_filter.mp hr).1 hk
    · refine ⟨h.nodes, fun r hk => ?_, fun r hr hk => ?_⟩
      · rw [← h.others r hk]
        simp only [EdgeTable.updateWhere, List.mem_map, decide_eq_true_eq]
        constructor
        · rintro ⟨r₁, hr₁, rfl⟩
          split at hk
          · rename_i hid₁
            exact absurd (h.row htb hkind hr₁ hid₁).1 hk
          · rename_i hid₁
            rw [if_neg hid₁]
            exact hr₁
        · exact fun hr => ⟨r, hr, if_neg (hid r hr hk)⟩
      · simp only [EdgeTable.updateWhere, List.mem_map, decide_eq_true_eq] at hr
        obtain ⟨r₁, hr₁, rfl⟩ := hr
        split at hk
        · rename_i hid₁
          obtain ⟨hk₁, ht, hf, hl⟩ := h.row htb hkind hr₁ hid₁
          rw [if_pos hid₁]
          refine ⟨tb, htb, hid₁.symm, hkind.trans hk₁.symm, ht.symm, hf.symm, hl.symm, .inr ?_⟩
          refine ⟨c, hcand.1, ?_, rfl⟩
          rw [← hcand.2.1]
          exact callOf_congr ht hf hl
        · rename_i hid₁
          rw [if_neg hid₁]
          exact h.tested r₁ hr₁ hk
  · exact h

theorem following_foldl : ∀ (tbs : List EdgeRow) (cur : Store), Following s cur →
    (∀ tb ∈ tbs, tb ∈ s.edges.rows ∧ tb.kind = "TESTED_BY") →
    Following s ((tbs.map fun tb => (tb, s.candidates tb)).foldl Store.syncGroup cur)
  | [], _, h, _ => h
  | tb :: tbs, cur, h, htbs => by
      obtain ⟨htb, hkind⟩ := htbs tb List.mem_cons_self
      exact following_foldl tbs _ (h.syncGroup htb hkind)
        fun a ha => htbs a (List.mem_cons_of_mem _ ha)

theorem mem_bareTestedBy {tb : EdgeRow} (h : tb ∈ s.edges.rows.filter s.bareTestedBy) :
    tb ∈ s.edges.rows ∧ tb.kind = "TESTED_BY" := by
  simp only [bareTestedBy, List.mem_filter, Bool.and_eq_true, decide_eq_true_eq] at h
  exact ⟨h.1, h.2.1.1⟩

theorem following_sync (s : Store) : Following s s.syncTestedByWithCalls :=
  following_foldl _ s (.refl s) fun _ => mem_bareTestedBy

theorem mem_dropUntested : r ∈ s.dropUntested.edges.rows ↔
    r ∈ s.edges.rows ∧ (r.kind = "TESTED_BY" → r.source ∈ s.nodes.names) := by
  simp only [dropUntested, EdgeTable.deleteWhere, isNode, List.mem_filter, Bool.not_eq_true',
    Bool.and_eq_false_iff, decide_eq_false_iff_not, Bool.not_eq_false', decide_eq_true_eq,
    imp_iff_not_or]

theorem mem_foldl_addTestedBy : ∀ (cs : List EdgeRow) (s : Store),
    (cs.foldl addTestedBy s).nodes = s.nodes ∧
    ∀ r, r ∈ (cs.foldl addTestedBy s).edges.rows →
      r ∈ s.edges.rows ∨ (s.edges.seq < r.id ∧ ∃ c ∈ cs, r = { testedByRow c with id := r.id })
  | [], s => ⟨rfl, fun _ hr => .inl hr⟩
  | c :: cs, s => by
      obtain ⟨hn, hmem⟩ := mem_foldl_addTestedBy cs (s.addTestedBy c)
      refine ⟨hn, fun r hr => ?_⟩
      rcases hmem r hr with hr | ⟨hlt, c', hc', hrc⟩
      · rcases List.mem_append.mp hr with hr | hr
        · exact .inl hr
        · obtain rfl := List.mem_singleton.mp hr
          exact .inr ⟨Nat.lt_succ_self _, c, List.mem_cons_self, rfl⟩
      · exact .inr ⟨Nat.lt_trans (Nat.lt_succ_self _) hlt, c', List.mem_cons_of_mem _ hc', hrc⟩

theorem mem_foldl_addTestedBy_of_mem : ∀ (cs : List EdgeRow) (s : Store),
    r ∈ s.edges.rows → r ∈ (cs.foldl addTestedBy s).edges.rows
  | [], _, hr => hr
  | _ :: cs, _, hr => mem_foldl_addTestedBy_of_mem cs _ (List.mem_append_left _ hr)

theorem call_mem_reconcile (hk : r.kind ≠ "TESTED_BY") :
    r ∈ s.reconcileTestedByWithCalls.edges.rows ↔ r ∈ s.edges.rows := by
  unfold reconcileTestedByWithCalls
  constructor
  · intro hr
    rcases (mem_foldl_addTestedBy _ _).2 r hr with hr | ⟨-, c, -, hrc⟩
    · exact (mem_dropUntested.mp hr).1
    · exact absurd (by rw [hrc]; rfl) hk
  · intro hr
    exact mem_foldl_addTestedBy_of_mem _ _ (mem_dropUntested.mpr ⟨hr, fun h => absurd h hk⟩)

/-! ## Settled targets -/

theorem reexported_spec (h : s.reexported r = true) :
    reexportKind r.kind = true ∧ s.isNode r.target = false := by
  simp only [reexported, Bool.and_eq_true, Bool.not_eq_true'] at h
  exact ⟨h.1.1, h.2⟩

theorem passed_reexports {keep : EdgeRow → Prop} (hs : s.resolveReexportedTargets = some s')
    (hkeep : ∀ r, keep r → s.isNode r.target = true) : Passed keep s s' := by
  unfold resolveReexportedTargets at hs
  split at hs
  · obtain rfl := Option.some.inj hs
    refine passed_rewrite fun r _ hsel => ⟨(reexported_spec hsel).1, fun hk => ?_⟩
    have hnode := (reexported_spec hsel).2
    rw [hkeep r hk] at hnode
    cases hnode
  · cases hs

/-- Where re-exports lead nowhere, the pass leaves the external calls alone as well. -/
theorem settled_reexports (hs : s.resolveReexportedTargets = some s')
    (hnone : ∀ r ∈ s.edges.rows, r.kind = "CALLS" → r.external = true →
      s.isNode r.target = true ∨ s.reexportTarget r.target = none) :
    Passed (settled s.nodes) s s' := by
  unfold resolveReexportedTargets at hs
  split at hs
  · obtain rfl := Option.some.inj hs
    refine passed_rewrite fun r hr hsel => ⟨(reexported_spec hsel).1, fun hk cur _ => ?_⟩
    have hnode := (reexported_spec hsel).2
    rcases hk with ⟨-, -, hin⟩ | ⟨hkind, hext⟩
    · rw [isNode_iff.mpr hin] at hnode
      cases hnode
    · rcases hnone r hr hkind hext with hin | hre
      · rw [hin] at hnode
        cases hnode
      · rw [hre]
        rfl
  · cases hs

theorem hasScope_of_splitOnce {t : String} {p : String × String}
    (h : splitOnce "::" t = some p) : hasScope t = true := by
  have hsep : "::".toList = [':', ':'] := by decide
  rw [splitOnce, hsep, Option.map_eq_some_iff] at h
  obtain ⟨q, hq, -⟩ := h
  simp [hasScope, hq]

theorem hasScope_of_reexportTarget {t q : String} (h : s.reexportTarget t = some q) :
    hasScope t = true := by
  unfold reexportTarget at h
  cases hs : splitOnce "::" t with
  | none => rw [hs] at h; cases h
  | some p => exact hasScope_of_splitOnce hs

theorem reexports_moves (hs : s.resolveReexportedTargets = some s') (hr : r ∈ s.edges.rows)
    (hkind : r.kind = "CALLS") (hnode : s.isNode r.target = false) {q : String}
    (hq : s.reexportTarget r.target = some q) :
    { r with
      target := q, targetName := edgeTargetName q
      confidence := directImportConfidence, tier := .high } ∈ s'.edges.rows := by
  unfold resolveReexportedTargets at hs
  split at hs
  · obtain rfl := Option.some.inj hs
    have hsel : s.reexported r = true := by
      simp [reexported, reexportKind, hkind, hnode, hasScope_of_reexportTarget hq]
    exact mem_rewriteRows (fun r => (s.reexportTarget r.target).map fun q =>
        EdgeWrite.retarget q none directImportConfidence .high)
      (by rw [hq]; rfl) _ s 0 (List.mem_filter.mpr ⟨hr, hsel⟩) hr (pairwise_filter_ids s _)
  · cases hs

/-- `resolve_bare_call_targets` changes no settled call exactly where no external
call names a symbol that its file re-exports. -/
theorem resolveBareCallTargets_keeps_iff {h : CallHeuristics}
    (hs : resolveBareCallTargets h s = some s') :
    (∀ r ∈ s.edges.rows, r.kind = "CALLS" →
        ((hasScope r.target = true ∧ s.isNode r.target = true) ∨ r.external = true) →
        ∃ r' ∈ s'.edges.rows, r'.id = r.id ∧ r'.target = r.target) ↔
      ∀ r ∈ s.edges.rows, r.kind = "CALLS" → r.external = true →
        s.isNode r.target = true ∨ s.reexportTarget r.target = none := by
  simp only [resolveBareCallTargets, Option.map_eq_some_iff] at hs
  obtain ⟨s₂, hcalls, rfl⟩ := hs
  obtain ⟨s₁, hre, hset⟩ := settling_resolveCalls s h (settled s.nodes) hcalls
  have hfirst : Passed (fun _ => False) s s₁ := passed_reexports hre fun _ hk => hk.elim
  have hnodes : s₁.nodes = s.nodes := hfirst.nodes
  have hleaves : Leaves h (settled s.nodes) s₁ := hnodes ▸ leaves_settled
  -- calls are as the call passes left them
  have hfinal : ∀ r : EdgeRow, r.kind = "CALLS" →
      (r ∈ s₂.syncTestedByWithCalls.reconcileTestedByWithCalls.edges.rows
        ↔ r ∈ s₂.edges.rows) := by
    intro r hk
    have hne : r.kind ≠ "TESTED_BY" := by simp [hk]
    rw [call_mem_reconcile hne, (following_sync s₂).others r hne]
  constructor
  · intro hall r hr hkind hext
    by_cases hnode : s.isNode r.target = true
    · exact .inl hnode
    · right
      cases hq : s.reexportTarget r.target with
      | none => rfl
      | some q =>
          have hmoved := reexports_moves hre hr hkind (by simpa using hnode) hq
          have hkept := (hset hleaves).keeps _ hmoved (.inr ⟨hkind, hext⟩)
          obtain ⟨r', hr', hid, htarget⟩ := hall r hr hkind (.inr hext)
          have heq := row_eq_of_id hr' ((hfinal { r with
            target := q, targetName := edgeTargetName q
            confidence := directImportConfidence, tier := .high } hkind).mpr hkept) hid
          have hqt : q = r.target := by rw [← htarget, heq]
          exact absurd (hqt ▸ isNode_of_reexportTarget hq) hnode
  · intro hnone r hr hkind hsettled
    have hall := (settled_reexports hre hnone).trans (hset hleaves)
    refine ⟨r, (hfinal r hkind).mpr (hall.keeps r hr ?_), rfl, rfl⟩
    rcases hsettled with ⟨hscope, hnode⟩ | hext
    · exact .inl ⟨hkind, hscope, isNode_iff.mp hnode⟩
    · exact .inr ⟨hkind, hext⟩

def noHeuristics : CallHeuristics where
  shape _ _ := none
  bind _ _ _ := none
  enumVariant _ _ := none
  field _ _ := none
  goDeclared _ _ := none
  pending _ _ := none
  pyo3 _ _ := none
  globImport _ _ _ := none
  deref _ _ := none
  stdMethod _ _ := none
  observed _ _ _ := false

/-- A repository with a `chart.py` that imports `Chart` from `lib/chart.py`, and a call of
the npm package of that name: `import { Chart } from 'chart.py'`. The re-export is there
when `reexports`. -/
def chartStore (reexports : Bool) : Store where
  nodes := upsertNodes .empty
    [({ kind := "File", name := "chart.py", filePath := "chart.py" }, "", 0),
      ({ kind := "File", name := "lib/chart.py", filePath := "lib/chart.py" }, "", 0),
      ({ kind := "Class", name := "Chart", filePath := "lib/chart.py" }, "", 0)]
  edges := (EdgeTable.empty.insert (EdgeInput.row
      { kind := "CALLS", source := "src/app.js::draw", target := "chart.py::Chart"
        filePath := "src/app.js", line := 3 }
      (.obj [("external", .bool true), ("external_package", .str "chart.py")]))).insert
    (EdgeInput.row
      { kind := "IMPORTS_FROM", source := "chart.py", target := "lib/chart.py"
        filePath := "chart.py", line := 1 }
      (if reexports then .obj [("names", .arr [.arr [.str "Chart", .str "Chart"]])] else .obj []))

/-- The external call is moved into the repository. -/
theorem resolveBareCallTargets_moves_external :
    ∃ s', resolveBareCallTargets noHeuristics (chartStore true) = some s' ∧
      (chartStore true).edges.rows.any (fun r =>
        r.id = 1 && r.kind = "CALLS" && r.external && r.target = "chart.py::Chart") = true ∧
      ¬ ∃ r' ∈ s'.edges.rows, r'.id = 1 ∧ r'.target = "chart.py::Chart" := by
  have htargets : (resolveBareCallTargets noHeuristics (chartStore true)).map
      (fun s' => s'.edges.rows.map fun r => (r.id, r.target))
        = some [(1, "lib/chart.py::Chart"), (2, "lib/chart.py")] := by decide
  obtain ⟨s', hs', hrows⟩ := Option.map_eq_some_iff.mp htargets
  refine ⟨s', hs', by decide, ?_⟩
  rintro ⟨r', hr', hid, ht⟩
  have hmem := List.mem_map_of_mem (f := fun r => (r.id, r.target)) hr'
  rw [hrows] at hmem
  simp [hid, ht] at hmem

theorem resolveBareCallTargets_keeps_chart :
    ∃ s', resolveBareCallTargets noHeuristics (chartStore false) = some s' ∧
      ∀ r ∈ (chartStore false).edges.rows, r.kind = "CALLS" →
        ((hasScope r.target = true ∧ (chartStore false).isNode r.target = true) ∨
          r.external = true) →
        ∃ r' ∈ s'.edges.rows, r'.id = r.id ∧ r'.target = r.target := by
  have hsome : (resolveBareCallTargets noHeuristics (chartStore false)).isSome = true := by decide
  obtain ⟨s', hs'⟩ := Option.isSome_iff_exists.mp hsome
  have hnone : (chartStore false).edges.rows.all (fun r =>
      (chartStore false).reexportTarget r.target = none) = true := by decide
  refine ⟨s', hs', (resolveBareCallTargets_keeps_iff hs').mpr fun r hr _ _ => .inr ?_⟩
  simpa using List.all_eq_true.mp hnone r hr

end Store

end Dagayn
