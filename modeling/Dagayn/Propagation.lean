import Dagayn.Dict
import Mathlib

/-!
# Sets that grow to a fixed point

Each key of a table has a set. A set takes in whatever its elements lead to (`next`), and
all that the set of a key it inherits from has (`parents`). The loop goes over the keys in
rounds until a round changes nothing; the sets are then the least ones that contain the
first ones and are closed under both (`loop_least`), whatever the orders in which sets and
keys are gone through, and it ends after as many rounds as the sets can grow
(`exists_loop`).
-/

namespace Dagayn

namespace Propagation

variable {V : Type} [DecidableEq V]

/-! ## One set -/

/-- A value that is not seen yet is seen and pending. -/
def visit (acc : List V × List V) (v : V) : List V × List V :=
  if v ∈ acc.1 then acc else (v :: acc.1, v :: acc.2)

/-- What the pending values lead to is visited, the last one that came first; `none` when
the steps do not suffice. -/
def drain (next : V → List V) : Nat → List V × List V → Option (List V)
  | _, (seen, []) => some seen
  | 0, (_, _ :: _) => none
  | fuel + 1, (seen, v :: pending) => drain next fuel ((next v).foldl visit (seen, pending))

theorem mem_seen_visit {vs : List V} {acc : List V × List V} {v : V} :
    v ∈ (vs.foldl visit acc).1 ↔ v ∈ acc.1 ∨ v ∈ vs := by
  induction vs generalizing acc with
  | nil => simp
  | cons w vs ih =>
      rw [List.foldl_cons, ih, visit, List.mem_cons]
      split
      · rename_i hw
        constructor
        · rintro (h | h)
          · exact .inl h
          · exact .inr (.inr h)
        · rintro (h | rfl | h)
          · exact .inl h
          · exact .inl hw
          · exact .inr h
      · rw [List.mem_cons]
        tauto

theorem mem_pending_visit {vs : List V} {acc : List V × List V} {v : V} :
    v ∈ (vs.foldl visit acc).2 ↔ v ∈ acc.2 ∨ (v ∈ vs ∧ v ∉ acc.1) := by
  induction vs generalizing acc with
  | nil => simp
  | cons w vs ih =>
      rw [List.foldl_cons, ih, visit, List.mem_cons]
      split
      · rename_i hw
        constructor
        · rintro (h | ⟨h, hn⟩)
          · exact .inl h
          · exact .inr ⟨.inr h, hn⟩
        · rintro (h | ⟨rfl | h, hn⟩)
          · exact .inl h
          · exact absurd hw hn
          · exact .inr ⟨h, hn⟩
      · rename_i hw
        simp only [List.mem_cons, not_or]
        constructor
        · rintro ((rfl | h) | ⟨h, -, hn⟩)
          · exact .inr ⟨.inl rfl, hw⟩
          · exact .inl h
          · exact .inr ⟨.inr h, hn⟩
        · rintro (h | ⟨h, hn⟩)
          · exact .inl (.inr h)
          · by_cases heq : v = w
            · exact .inl (.inl heq)
            · exact .inr ⟨h.resolve_left heq, heq, hn⟩

theorem nodup_visit {vs : List V} {acc : List V × List V} (h : acc.1.Nodup) :
    (vs.foldl visit acc).1.Nodup := by
  induction vs generalizing acc with
  | nil => exact h
  | cons w vs ih =>
      rw [List.foldl_cons]
      refine ih ?_
      unfold visit
      split
      · exact h
      · rename_i hw
        exact List.nodup_cons.mpr ⟨hw, h⟩

theorem length_visit (vs : List V) (acc : List V × List V) :
    (vs.foldl visit acc).1.length + acc.2.length = acc.1.length + (vs.foldl visit acc).2.length
    := by
  induction vs generalizing acc with
  | nil => rfl
  | cons w vs ih =>
      rw [List.foldl_cons]
      have hrest := ih (visit acc w)
      unfold visit at hrest ⊢
      split at hrest
      · rename_i hw
        rw [if_pos hw]
        exact hrest
      · rename_i hw
        rw [if_neg hw]
        simp only [List.length_cons] at hrest
        omega

/-- What holds while values are pending: the others lead to nothing new. -/
structure Draining (next : V → List V) (acc : List V × List V) : Prop where
  nodup : acc.1.Nodup
  pending : acc.2 ⊆ acc.1
  led : ∀ v ∈ acc.1, v ∉ acc.2 → ∀ w ∈ next v, w ∈ acc.1

variable {next : V → List V}

theorem Draining.step {seen pending : List V} {v : V} (h : Draining next (seen, v :: pending)) :
    Draining next ((next v).foldl visit (seen, pending)) where
  nodup := nodup_visit h.nodup
  pending w hw := by
    rw [mem_pending_visit] at hw
    rw [mem_seen_visit]
    rcases hw with hw | ⟨hw, -⟩
    · exact .inl (h.pending (List.mem_cons_of_mem _ hw))
    · exact .inr hw
  led w hw hnot x hx := by
    rw [mem_seen_visit] at hw ⊢
    rw [mem_pending_visit, not_or] at hnot
    by_cases hwv : w = v
    · exact .inr (hwv ▸ hx)
    · have hseen : w ∈ seen := by
        rcases hw with hw | hw
        · exact hw
        · exact by_contra fun hn => hnot.2 ⟨hw, hn⟩
      have hpend : w ∉ v :: pending := by
        rw [List.mem_cons, not_or]
        exact ⟨hwv, hnot.1⟩
      exact .inl (h.led w hseen hpend x hx)

theorem drain_spec {fuel : Nat} {acc : List V × List V} {r : List V} (h : Draining next acc)
    (hr : drain next fuel acc = some r) :
    r.Nodup ∧ acc.1 ⊆ r ∧ (∀ v ∈ r, ∀ w ∈ next v, w ∈ r) ∧
      ∀ P : V → Prop, (∀ v ∈ acc.1, P v) → (∀ v w, P v → w ∈ next v → P w) → ∀ v ∈ r, P v := by
  induction fuel generalizing acc with
  | zero =>
      obtain ⟨seen, pending⟩ := acc
      cases pending with
      | nil =>
          obtain rfl := Option.some.inj hr
          exact ⟨h.nodup, fun _ hv => hv, fun v hv => h.led v hv List.not_mem_nil,
            fun P hP _ => hP⟩
      | cons v pending => cases hr
  | succ fuel ih =>
      obtain ⟨seen, pending⟩ := acc
      cases pending with
      | nil =>
          obtain rfl := Option.some.inj hr
          exact ⟨h.nodup, fun _ hv => hv, fun v hv => h.led v hv List.not_mem_nil,
            fun P hP _ => hP⟩
      | cons v pending =>
          obtain ⟨hnodup, hsub, hclosed, hleast⟩ := ih h.step hr
          refine ⟨hnodup, fun w hw => hsub (mem_seen_visit.mpr (.inl hw)), hclosed,
            fun P hP hnext => hleast P (fun w hw => ?_) hnext⟩
          rcases mem_seen_visit.mp hw with hw | hw
          · exact hP w hw
          · exact hnext v w (hP v (h.pending List.mem_cons_self)) hw

theorem exists_drain {whole : List V} (hnext : ∀ v, next v ⊆ whole) {fuel : Nat}
    {acc : List V × List V} (h : Draining next acc) (hsub : acc.1 ⊆ whole)
    (hfuel : acc.2.length + whole.length ≤ fuel + acc.1.length) :
    ∃ r, drain next fuel acc = some r := by
  have hle : acc.1.length ≤ whole.length := (List.subperm_of_subset h.nodup hsub).length_le
  induction fuel generalizing acc with
  | zero =>
      obtain ⟨seen, pending⟩ := acc
      cases pending with
      | nil => exact ⟨seen, rfl⟩
      | cons v pending =>
          simp only [List.length_cons] at hfuel hle
          omega
  | succ fuel ih =>
      obtain ⟨seen, pending⟩ := acc
      cases pending with
      | nil => exact ⟨seen, rfl⟩
      | cons v pending =>
          have hsub' : ((next v).foldl visit (seen, pending)).1 ⊆ whole := by
            intro w hw
            rcases mem_seen_visit.mp hw with hw | hw
            · exact hsub hw
            · exact hnext v hw
          have hlen := length_visit (next v) (seen, pending)
          refine ih h.step hsub' ?_ (List.subperm_of_subset h.step.nodup hsub').length_le
          simp only [List.length_cons] at hfuel hlen
          omega

/-! ## The table -/

/-- The orders in which the sets and the keys are gone through, for each round and key. -/
structure Orders (V : Type) where
  files : Nat → List V → List V
  pending : Nat → V → List V → List V
  modules : Nat → V → List V → List V
  inherited : Nat → V → V → List V → List V
  exported : Nat → V → V → List V → List V
  files_perm : ∀ n l, (files n l).Perm l
  pending_perm : ∀ n v l, (pending n v l).Perm l
  modules_perm : ∀ n v l, (modules n v l).Perm l
  inherited_perm : ∀ n v w l, (inherited n v w l).Perm l
  exported_perm : ∀ n v w l, (exported n v w l).Perm l

section Loop

variable (o : Orders V) (next parents : V → List V)

/-- The set of a key with what it inherits, and what of it is pending. -/
def inherit (round : Nat) (table : Dict V (List V)) (file : V) : List V × List V :=
  (o.modules round file (parents file)).foldl
    (fun acc m => (o.inherited round file m (table.getD m [])).foldl visit acc)
    (table.getD file [], (o.pending round file (table.getD file [])).reverse)

def settle (fuel round : Nat) (table : Dict V (List V)) (file : V) : Option (List V) :=
  drain (fun m => o.exported round file m (next m)) fuel (inherit o parents round table file)

def updateFile (fuel round : Nat) (acc : Bool × Dict V (List V)) (file : V) :
    Option (Bool × Dict V (List V)) :=
  (settle o next parents fuel round acc.2 file).map fun seen =>
    if seen.length ≠ (acc.2.getD file []).length then (true, acc.2.insert file seen) else acc

def runRound (fuel round : Nat) (table : Dict V (List V)) : Option (Bool × Dict V (List V)) :=
  (o.files round table.keys).foldlM (updateFile o next parents fuel round) (false, table)

def loop (fuel : Nat) : Nat → Nat → Dict V (List V) → Option (Dict V (List V))
  | 0, _, _ => none
  | n + 1, round, table =>
      (runRound o next parents fuel round table).bind fun acc =>
        if acc.1 then loop fuel n (round + 1) acc.2 else some acc.2

end Loop

/-- A relation that contains the first sets and is closed under both ways of growing. -/
structure Closed (first next parents : V → List V) (P : V → V → Prop) : Prop where
  first : ∀ f, ∀ v ∈ first f, P f v
  next : ∀ f v, P f v → ∀ w ∈ next v, P f w
  inherit : ∀ f, ∀ m ∈ parents f, ∀ v, P m v → P f v

section Invariant

variable (first next parents : V → List V) (keys whole : List V)

/-- What holds of the table throughout. -/
structure Growing (table : Dict V (List V)) : Prop where
  keys : ∀ f, f ∈ table ↔ f ∈ keys
  nodup : ∀ f, (table.getD f []).Nodup
  bounded : ∀ f, table.getD f [] ⊆ whole
  grown : ∀ f, first f ⊆ table.getD f []
  sound : ∀ P, Closed first next parents P → ∀ f, ∀ v ∈ table.getD f [], P f v

/-- The set of a key has all it is to take in. -/
def Stable (table : Dict V (List V)) (f : V) : Prop :=
  (∀ v ∈ table.getD f [], ∀ w ∈ next v, w ∈ table.getD f []) ∧
    ∀ m ∈ parents f, ∀ v ∈ table.getD m [], v ∈ table.getD f []

def size (table : Dict V (List V)) : Nat := (keys.map fun f => (table.getD f []).length).sum

end Invariant

section Step

variable {o : Orders V} {first next parents : V → List V} {keys whole : List V}
  {fuel round : Nat} {table : Dict V (List V)} {file : V}

theorem inherit_eq : inherit o parents round table file =
    ((o.modules round file (parents file)).flatMap fun m =>
      o.inherited round file m (table.getD m [])).foldl visit
      (table.getD file [], (o.pending round file (table.getD file [])).reverse) := by
  rw [inherit, List.foldl_flatMap]

theorem mem_inherited {v : V} :
    v ∈ ((o.modules round file (parents file)).flatMap fun m =>
      o.inherited round file m (table.getD m [])) ↔
      ∃ m ∈ parents file, v ∈ table.getD m [] := by
  simp only [List.mem_flatMap, (o.modules_perm _ _ _).mem_iff, (o.inherited_perm _ _ _ _).mem_iff]

theorem Growing.draining (h : Growing first next parents keys whole table) :
    Draining (fun m => o.exported round file m (next m)) (inherit o parents round table file) where
  nodup := by
    rw [inherit_eq]
    exact nodup_visit (h.nodup file)
  pending v hv := by
    rw [inherit_eq, mem_pending_visit, List.mem_reverse, (o.pending_perm _ _ _).mem_iff] at hv
    rw [inherit_eq, mem_seen_visit]
    exact hv.imp_right And.left
  led v hv hnot := by
    rw [inherit_eq, mem_seen_visit] at hv
    rw [inherit_eq, mem_pending_visit, List.mem_reverse, (o.pending_perm _ _ _).mem_iff,
      not_or] at hnot
    exact absurd hv fun hor => hor.elim hnot.1 fun hin => hnot.2 ⟨hin, hnot.1⟩

theorem exists_settle (h : Growing first next parents keys whole table)
    (hnext : ∀ v, next v ⊆ whole) (hfuel : whole.length ≤ fuel) :
    ∃ r, settle o next parents fuel round table file = some r := by
  have hsub : (inherit o parents round table file).1 ⊆ whole := by
    intro v hv
    rw [inherit_eq, mem_seen_visit, mem_inherited] at hv
    rcases hv with hv | ⟨m, -, hv⟩
    · exact h.bounded file hv
    · exact h.bounded m hv
  refine exists_drain (fun v w hw => ?_) h.draining hsub ?_
  · exact hnext v ((o.exported_perm _ _ _ _).mem_iff.mp hw)
  · have hlen := length_visit ((o.modules round file (parents file)).flatMap fun m =>
      o.inherited round file m (table.getD m []))
      (table.getD file [], (o.pending round file (table.getD file [])).reverse)
    rw [← inherit_eq, List.length_reverse, (o.pending_perm _ _ _).length_eq] at hlen
    simp only at hlen
    omega

theorem settle_spec (h : Growing first next parents keys whole table)
    (hnext : ∀ v, next v ⊆ whole) {r : List V}
    (hr : settle o next parents fuel round table file = some r) :
    r.Nodup ∧ table.getD file [] ⊆ r ∧ r ⊆ whole ∧ (∀ v ∈ r, ∀ w ∈ next v, w ∈ r) ∧
      (∀ m ∈ parents file, ∀ v ∈ table.getD m [], v ∈ r) ∧
      ∀ P, Closed first next parents P → ∀ v ∈ r, P file v := by
  obtain ⟨hnodup, hsub, hclosed, hleast⟩ := drain_spec h.draining hr
  have hstart : ∀ v, v ∈ table.getD file [] ∨ (∃ m ∈ parents file, v ∈ table.getD m []) →
      v ∈ r := by
    intro v hv
    refine hsub ?_
    rw [inherit_eq, mem_seen_visit, mem_inherited]
    exact hv
  have hled : ∀ P : V → Prop, (∀ v ∈ table.getD file [], P v) →
      (∀ m ∈ parents file, ∀ v ∈ table.getD m [], P v) →
      (∀ v w, P v → w ∈ next v → P w) → ∀ v ∈ r, P v := by
    intro P hown hinherited hnext
    refine hleast P (fun v hv => ?_) fun v w hv hw =>
      hnext v w hv ((o.exported_perm _ _ _ _).mem_iff.mp hw)
    rw [inherit_eq, mem_seen_visit, mem_inherited] at hv
    rcases hv with hv | ⟨m, hm, hv⟩
    · exact hown v hv
    · exact hinherited m hm v hv
  refine ⟨hnodup, fun v hv => hstart v (.inl hv), ?_, fun v hv w hw => ?_,
    fun m hm v hv => hstart v (.inr ⟨m, hm, hv⟩), fun P hP => ?_⟩
  · exact hled (· ∈ whole) (fun v hv => h.bounded file hv) (fun m _ v hv => h.bounded m hv)
      fun v w _ hw => hnext v hw
  · exact hclosed v hv w ((o.exported_perm _ _ _ _).mem_iff.mpr hw)
  · exact hled (P file) (h.sound P hP file) (fun m hm v hv => hP.inherit file m hm v
      (h.sound P hP m v hv)) fun v w hv hw => hP.next file v hv w hw

theorem Growing.insert (h : Growing first next parents keys whole table) (hfile : file ∈ keys)
    {r : List V} (hnodup : r.Nodup) (hsub : table.getD file [] ⊆ r) (hwhole : r ⊆ whole)
    (hsound : ∀ P, Closed first next parents P → ∀ v ∈ r, P file v) :
    Growing first next parents keys whole (table.insert file r) where
  keys f := by
    rw [AList.mem_insert, h.keys]
    exact ⟨fun hor => hor.elim (fun heq => heq ▸ hfile) id, .inr⟩
  nodup f := by
    rw [Dict.getD_insert]
    split
    · exact hnodup
    · exact h.nodup f
  bounded f := by
    rw [Dict.getD_insert]
    split
    · exact hwhole
    · exact h.bounded f
  grown f := by
    rw [Dict.getD_insert]
    split
    · rename_i heq
      exact fun v hv => hsub (heq ▸ h.grown f hv)
    · exact h.grown f
  sound P hP f := by
    rw [Dict.getD_insert]
    split
    · rename_i heq
      exact heq ▸ hsound P hP
    · exact h.sound P hP f

theorem size_lt_insert (hfile : file ∈ keys) {r : List V}
    (hlt : (table.getD file []).length < r.length) :
    size keys table < size keys (table.insert file r)
    := by
  refine List.sum_lt_sum _ _ (fun f _ => ?_) ⟨file, hfile, ?_⟩
  · rw [Dict.getD_insert]
    split
    · rename_i heq
      exact heq ▸ hlt.le
    · exact Nat.le_refl _
  · rw [Dict.getD_insert, if_pos rfl]
    exact hlt

theorem updateFile_spec {acc acc' : Bool × Dict V (List V)}
    (h : Growing first next parents keys whole acc.2) (hnext : ∀ v, next v ⊆ whole)
    (hfile : file ∈ keys) (hacc : updateFile o next parents fuel round acc file = some acc') :
    Growing first next parents keys whole acc'.2 ∧
      ((acc' = acc ∧ Stable next parents acc.2 file) ∨
        (acc'.1 = true ∧ size keys acc.2 < size keys acc'.2)) := by
  obtain ⟨r, hr, hacc⟩ := Option.map_eq_some_iff.mp hacc
  obtain ⟨hnodup, hsub, hwhole, hclosed, hinherited, hsound⟩ := settle_spec h hnext hr
  have hle : (acc.2.getD file []).length ≤ r.length :=
    (List.subperm_of_subset (h.nodup file) hsub).length_le
  split at hacc
  · rename_i hne
    subst hacc
    exact ⟨h.insert hfile hnodup hsub hwhole hsound,
      .inr ⟨rfl, size_lt_insert hfile (Nat.lt_of_le_of_ne hle (Ne.symm hne))⟩⟩
  · rename_i hlen
    subst hacc
    -- nothing was added, so the two sets are the same
    have hperm : (acc.2.getD file []).Perm r :=
      (List.subperm_of_subset (h.nodup file) hsub).perm_of_length_le (by omega)
    refine ⟨h, .inl ⟨rfl, fun v hv w hw => ?_, fun m hm v hv => ?_⟩⟩
    · exact hperm.mem_iff.mpr (hclosed v (hperm.mem_iff.mp hv) w hw)
    · exact hperm.mem_iff.mpr (hinherited m hm v hv)

theorem foldlM_updateFile_spec (hnext : ∀ v, next v ⊆ whole) {files : List V}
    (hfiles : files ⊆ keys) {acc acc' : Bool × Dict V (List V)}
    (h : Growing first next parents keys whole acc.2)
    (hacc : files.foldlM (updateFile o next parents fuel round) acc = some acc') :
    Growing first next parents keys whole acc'.2 ∧
      ((acc' = acc ∧ ∀ f ∈ files, Stable next parents acc.2 f) ∨
        (acc'.1 = true ∧ size keys acc.2 < size keys acc'.2)) := by
  induction files generalizing acc with
  | nil =>
      obtain rfl := Option.some.inj hacc
      exact ⟨h, .inl ⟨rfl, fun _ hf => absurd hf List.not_mem_nil⟩⟩
  | cons f files ih =>
      obtain ⟨hf, hfiles⟩ := List.cons_subset.mp hfiles
      rw [List.foldlM_cons, Option.bind_eq_bind, Option.bind_eq_some_iff] at hacc
      obtain ⟨mid, hmid, hacc⟩ := hacc
      obtain ⟨hgrow, hstep⟩ := updateFile_spec h hnext hf hmid
      obtain ⟨hgrow', hrest⟩ := ih hfiles hgrow hacc
      refine ⟨hgrow', ?_⟩
      rcases hstep with ⟨rfl, hstable⟩ | ⟨htrue, hlt⟩
      · rcases hrest with ⟨rfl, hall⟩ | hlt
        · exact .inl ⟨rfl, fun g hg => (List.mem_cons.mp hg).elim (fun heq => heq ▸ hstable)
            (hall g)⟩
        · exact .inr hlt
      · rcases hrest with ⟨rfl, -⟩ | ⟨htrue', hlt'⟩
        · exact .inr ⟨htrue, hlt⟩
        · exact .inr ⟨htrue', hlt.trans hlt'⟩

theorem exists_foldlM_updateFile (hnext : ∀ v, next v ⊆ whole) (hfuel : whole.length ≤ fuel)
    {files : List V} (hfiles : files ⊆ keys) {acc : Bool × Dict V (List V)}
    (h : Growing first next parents keys whole acc.2) :
    ∃ acc', files.foldlM (updateFile o next parents fuel round) acc = some acc' := by
  induction files generalizing acc with
  | nil => exact ⟨acc, rfl⟩
  | cons f files ih =>
      obtain ⟨hf, hfiles⟩ := List.cons_subset.mp hfiles
      obtain ⟨r, hr⟩ : ∃ r, settle o next parents fuel round acc.2 f = some r :=
        exists_settle h hnext hfuel
      obtain ⟨mid, hmid⟩ : ∃ mid, updateFile o next parents fuel round acc f = some mid :=
        ⟨_, by rw [updateFile, hr]; rfl⟩
      obtain ⟨acc', hacc'⟩ := ih hfiles (updateFile_spec h hnext hf hmid).1
      refine ⟨acc', ?_⟩
      rw [List.foldlM_cons, hmid]
      exact hacc'

end Step

section Rounds

variable {o : Orders V} {first next parents : V → List V} {keys whole : List V}
  {fuel : Nat} {table : Dict V (List V)}

theorem files_subset (h : Growing first next parents keys whole table) (round : Nat) :
    o.files round table.keys ⊆ keys := by
  intro f hf
  rw [(o.files_perm _ _).mem_iff, ← AList.mem_keys] at hf
  exact (h.keys f).mp hf

theorem runRound_spec (h : Growing first next parents keys whole table)
    (hnext : ∀ v, next v ⊆ whole) {round : Nat} {acc : Bool × Dict V (List V)}
    (hacc : runRound o next parents fuel round table = some acc) :
    Growing first next parents keys whole acc.2 ∧
      ((acc = (false, table) ∧ ∀ f ∈ keys, Stable next parents table f) ∨
        (acc.1 = true ∧ size keys table < size keys acc.2)) := by
  obtain ⟨hgrow, hstep⟩ := foldlM_updateFile_spec hnext (files_subset h round) h hacc
  refine ⟨hgrow, hstep.imp_left fun ⟨heq, hall⟩ => ⟨heq, fun f hf => hall f ?_⟩⟩
  rw [(o.files_perm _ _).mem_iff, ← AList.mem_keys]
  exact (h.keys f).mpr hf

theorem loop_stable (hnext : ∀ v, next v ⊆ whole) {n round : Nat} {r : Dict V (List V)}
    (h : Growing first next parents keys whole table)
    (hr : loop o next parents fuel n round table = some r) :
    Growing first next parents keys whole r ∧ ∀ f ∈ keys, Stable next parents r f := by
  induction n generalizing round table with
  | zero => cases hr
  | succ n ih =>
      rw [loop, Option.bind_eq_some_iff] at hr
      obtain ⟨acc, hacc, hr⟩ := hr
      obtain ⟨hgrow, hstep⟩ := runRound_spec h hnext hacc
      rcases hstep with ⟨rfl, hstable⟩ | ⟨htrue, -⟩
      · obtain rfl := Option.some.inj hr
        exact ⟨hgrow, hstable⟩
      · rw [if_pos htrue] at hr
        exact ih hgrow hr

theorem loop_least (hnext : ∀ v, next v ⊆ whole) (hparents : ∀ f, parents f ≠ [] → f ∈ keys)
    {n round : Nat} {r : Dict V (List V)} (h : Growing first next parents keys whole table)
    (hr : loop o next parents fuel n round table = some r) :
    (∀ f, f ∈ r ↔ f ∈ keys) ∧ Closed first next parents (fun f v => v ∈ r.getD f []) ∧
      ∀ P, Closed first next parents P → ∀ f v, v ∈ r.getD f [] → P f v := by
  obtain ⟨hgrow, hstable⟩ := loop_stable hnext h hr
  refine ⟨hgrow.keys, ⟨fun f v hv => hgrow.grown f hv, fun f v hv w hw => ?_,
    fun f m hm v hv => ?_⟩, fun P hP f v => hgrow.sound P hP f v⟩
  · -- a key without a set has no elements
    have hmem : f ∈ keys := by
      refine by_contra fun hnot => ?_
      have hnone : r.lookup f = none := AList.lookup_eq_none.mpr fun hin =>
        hnot ((hgrow.keys f).mp hin)
      rw [Dict.getD, hnone] at hv
      exact absurd hv List.not_mem_nil
    exact (hstable f hmem).1 v hv w hw
  · exact (hstable f (hparents f (List.ne_nil_of_mem hm))).2 m hm v hv

theorem size_le (h : Growing first next parents keys whole table) :
    size keys table ≤ keys.length * whole.length := by
  have hle : ∀ n ∈ keys.map fun f => (table.getD f []).length, n ≤ whole.length := by
    intro n hn
    obtain ⟨f, -, rfl⟩ := List.mem_map.mp hn
    exact (List.subperm_of_subset (h.nodup f) (h.bounded f)).length_le
  have hsum := List.sum_le_card_nsmul _ _ hle
  rwa [List.length_map, smul_eq_mul] at hsum

theorem exists_loop (hnext : ∀ v, next v ⊆ whole) (hfuel : whole.length ≤ fuel) {n round : Nat}
    (h : Growing first next parents keys whole table)
    (hn : keys.length * whole.length < n + size keys table) :
    ∃ r, loop o next parents fuel n round table = some r := by
  induction n generalizing round table with
  | zero =>
      have hle := size_le h
      omega
  | succ n ih =>
      obtain ⟨acc, hacc⟩ : ∃ acc, runRound o next parents fuel round table = some acc :=
        exists_foldlM_updateFile hnext hfuel (files_subset h round) h
      rw [loop, hacc, Option.bind_some]
      obtain ⟨hgrow, ⟨rfl, -⟩ | ⟨htrue, hlt⟩⟩ := runRound_spec h hnext hacc
      · exact ⟨table, rfl⟩
      · rw [if_pos htrue]
        exact ih hgrow (by omega)

end Rounds

end Propagation

end Dagayn
