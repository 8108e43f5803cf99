import Mathlib

/-!
# Search level by level

A table of vertices with depths that grows by one level at a time: a vertex that is in
the table already is ignored. Whatever the graph, the table then holds each vertex with
its distance from the seeds (`expandLevels_exact`), also when the loop stops at the first
level that adds nothing.
-/

namespace Dagayn

namespace Levels

section Distance

variable {V : Type} (adj : V → V → Prop) (seed : V → Prop)

/-- A walk of so many steps from a seed. -/
inductive Walk : Nat → V → Prop
  | seed {v : V} : seed v → Walk 0 v
  | step {n : Nat} {u v : V} : Walk n u → adj u v → Walk (n + 1) v

/-- The shortest walk to the vertex has `n` steps. -/
def AtDistance (n : Nat) (v : V) : Prop := Walk adj seed n v ∧ ∀ m < n, ¬ Walk adj seed m v

variable {adj seed}

theorem Walk.exists_atDistance {n : Nat} {v : V} (h : Walk adj seed n v) :
    ∃ m ≤ n, AtDistance adj seed m v := by
  induction n using Nat.strongRecOn with
  | _ n ih =>
      by_cases hless : ∃ m < n, Walk adj seed m v
      · obtain ⟨m, hm, hwalk⟩ := hless
        obtain ⟨k, hk, hat⟩ := ih m hm hwalk
        exact ⟨k, by omega, hat⟩
      · exact ⟨n, Nat.le_refl n, h, fun m hm hwalk => hless ⟨m, hm, hwalk⟩⟩

theorem AtDistance.unique {n m : Nat} {v : V} (hn : AtDistance adj seed n v)
    (hm : AtDistance adj seed m v) : n = m := by
  rcases Nat.lt_trichotomy n m with h | h | h
  · exact absurd hn.1 (hm.2 n h)
  · exact h
  · exact absurd hm.1 (hn.2 m h)

theorem atDistance_zero {v : V} : AtDistance adj seed 0 v ↔ seed v := by
  constructor
  · rintro ⟨hwalk, -⟩
    cases hwalk with
    | seed h => exact h
  · exact fun h => ⟨.seed h, by simp⟩

theorem atDistance_succ {n : Nat} {v : V} :
    AtDistance adj seed (n + 1) v ↔
      (∃ u, AtDistance adj seed n u ∧ adj u v) ∧ ∀ m ≤ n, ¬ AtDistance adj seed m v := by
  constructor
  · rintro ⟨hwalk, hshort⟩
    cases hwalk with
    | @step _ u _ hu huv =>
        refine ⟨⟨u, ⟨hu, fun m hm hwalk => ?_⟩, huv⟩, fun m hm hat => ?_⟩
        · exact hshort (m + 1) (by omega) (.step hwalk huv)
        · exact hshort m (by omega) hat.1
  · rintro ⟨⟨u, hu, huv⟩, hnot⟩
    refine ⟨.step hu.1 huv, fun m hm hwalk => ?_⟩
    obtain ⟨k, hk, hat⟩ := hwalk.exists_atDistance
    exact hnot k (by omega) hat

theorem not_atDistance_of_le {n m : Nat} (h : ∀ v, ¬ AtDistance adj seed n v) (hle : n ≤ m) :
    ∀ v, ¬ AtDistance adj seed m v := by
  induction hle with
  | refl => exact h
  | step _ ih =>
      intro v hv
      obtain ⟨⟨u, hu, -⟩, -⟩ := atDistance_succ.mp hv
      exact ih u hu

end Distance

section Table

variable {V : Type} [DecidableEq V]

/-- `INSERT OR IGNORE` of rows with one depth. -/
def insertOrIgnore (table : List (V × Nat)) (depth : Nat) : List V → List (V × Nat)
  | [] => table
  | v :: vs =>
      if v ∈ table.map Prod.fst then insertOrIgnore table depth vs
      else insertOrIgnore (table ++ [(v, depth)]) depth vs

/-- At most `n` levels behind level `k`; `next` gives the rows a level leads to. The loop
stops when no row is inserted. -/
def expandLevels (next : List (V × Nat) → Nat → List V) :
    Nat → Nat → List (V × Nat) → List (V × Nat)
  | 0, _, table => table
  | n + 1, k, table =>
      let table' := insertOrIgnore table (k + 1) (next table k)
      if table'.length = table.length then table' else expandLevels next n (k + 1) table'

theorem mem_insertOrIgnore {table : List (V × Nat)} {depth : Nat} {vs : List V} {v : V}
    {k : Nat} :
    (v, k) ∈ insertOrIgnore table depth vs ↔
      (v, k) ∈ table ∨ (k = depth ∧ v ∈ vs ∧ v ∉ table.map Prod.fst) := by
  induction vs generalizing table with
  | nil => simp [insertOrIgnore]
  | cons w vs ih =>
      rw [insertOrIgnore]
      by_cases hw : w ∈ table.map Prod.fst
      · rw [if_pos hw, ih]
        refine or_congr_right (and_congr_right fun _ => and_congr_left fun hv => ?_)
        rw [List.mem_cons]
        exact ⟨.inr, fun h => h.resolve_left fun heq => hv (heq ▸ hw)⟩
      · rw [if_neg hw, ih, List.map_append, List.map_singleton, List.mem_append, List.mem_append,
          List.mem_singleton, List.mem_singleton, List.mem_cons, Prod.mk.injEq]
        by_cases hv : v = w
        · subst hv
          simp [hw]
        · simp [hv]

theorem nodup_insertOrIgnore {table : List (V × Nat)} {depth : Nat} {vs : List V}
    (h : (table.map Prod.fst).Nodup) : ((insertOrIgnore table depth vs).map Prod.fst).Nodup := by
  induction vs generalizing table with
  | nil => exact h
  | cons w vs ih =>
      rw [insertOrIgnore]
      by_cases hw : w ∈ table.map Prod.fst
      · rw [if_pos hw]
        exact ih h
      · rw [if_neg hw]
        refine ih ?_
        rw [List.map_append, List.nodup_append_comm]
        exact List.nodup_cons.mpr ⟨hw, h⟩

theorem prefix_insertOrIgnore (table : List (V × Nat)) (depth : Nat) (vs : List V) :
    table <+: insertOrIgnore table depth vs := by
  induction vs generalizing table with
  | nil => exact List.prefix_rfl
  | cons w vs ih =>
      rw [insertOrIgnore]
      split
      · exact ih table
      · exact (List.prefix_append _ _).trans (ih _)

variable {adj : V → V → Prop} {seed : V → Prop}

/-- The table holds the vertices up to a level, each once and with its distance. -/
structure Exact (adj : V → V → Prop) (seed : V → Prop) (n : Nat) (table : List (V × Nat)) :
    Prop where
  nodup : (table.map Prod.fst).Nodup
  mem_iff : ∀ v k, (v, k) ∈ table ↔ k ≤ n ∧ AtDistance adj seed k v

theorem Exact.step {n : Nat} {table : List (V × Nat)} (h : Exact adj seed n table) {vs : List V}
    (hvs : ∀ v, v ∈ vs ↔ ∃ u, (u, n) ∈ table ∧ adj u v) :
    Exact adj seed (n + 1) (insertOrIgnore table (n + 1) vs) where
  nodup := nodup_insertOrIgnore h.nodup
  mem_iff v k := by
    have hseen : v ∉ table.map Prod.fst ↔ ∀ m ≤ n, ¬ AtDistance adj seed m v := by
      rw [List.mem_map]
      constructor
      · exact fun hnot m hm hat => hnot ⟨(v, m), (h.mem_iff v m).mpr ⟨hm, hat⟩, rfl⟩
      · rintro hnot ⟨⟨_, m⟩, hmem, rfl⟩
        have hat := (h.mem_iff _ m).mp hmem
        exact hnot m hat.1 hat.2
    have hnext : v ∈ vs ↔ ∃ u, AtDistance adj seed n u ∧ adj u v := by
      rw [hvs]
      simp only [h.mem_iff, Nat.le_refl, true_and]
    rw [mem_insertOrIgnore, h.mem_iff, hseen, hnext, ← atDistance_succ]
    constructor
    · rintro (⟨hk, hat⟩ | ⟨rfl, hat⟩)
      · exact ⟨by omega, hat⟩
      · exact ⟨Nat.le_refl _, hat⟩
    · rintro ⟨hk, hat⟩
      rcases Nat.lt_or_eq_of_le hk with hlt | rfl
      · exact .inl ⟨by omega, hat⟩
      · exact .inr ⟨rfl, hat⟩

omit [DecidableEq V] in
theorem Exact.of_stop {n m : Nat} {table : List (V × Nat)} (h : Exact adj seed (n + 1) table)
    (hempty : ∀ v, (v, n + 1) ∉ table) (hle : n + 1 ≤ m) : Exact adj seed m table where
  nodup := h.nodup
  mem_iff v k := by
    have hnone : ∀ v, ¬ AtDistance adj seed (n + 1) v := fun v hat =>
      hempty v ((h.mem_iff v (n + 1)).mpr ⟨Nat.le_refl _, hat⟩)
    rw [h.mem_iff]
    constructor
    · exact fun hk => ⟨by omega, hk.2⟩
    · rintro ⟨hk, hat⟩
      refine ⟨?_, hat⟩
      by_contra hgt
      exact not_atDistance_of_le hnone (by omega) v hat

theorem expandLevels_exact {next : List (V × Nat) → Nat → List V}
    (hnext : ∀ table k v, v ∈ next table k ↔ ∃ u, (u, k) ∈ table ∧ adj u v) (n k : Nat)
    (table : List (V × Nat)) (h : Exact adj seed k table) :
    Exact adj seed (k + n) (expandLevels next n k table) := by
  induction n generalizing k table with
  | zero => exact h
  | succ n ih =>
      have hstep := h.step (hnext table k)
      rw [expandLevels]
      by_cases hstop : (insertOrIgnore table (k + 1) (next table k)).length = table.length
      · simp only [if_pos hstop]
        have hsame : table = insertOrIgnore table (k + 1) (next table k) :=
          (prefix_insertOrIgnore table (k + 1) (next table k)).eq_of_length hstop.symm
        refine hstep.of_stop (fun v hv => ?_) (by omega)
        rw [← hsame, h.mem_iff] at hv
        omega
      · simp only [if_neg hstop]
        have hlevels := ih (k + 1) _ hstep
        rwa [Nat.add_right_comm, Nat.add_assoc] at hlevels

end Table

section Frontier

variable {V : Type} {adj : V → V → Prop} {seed : V → Prop}

/-- `n` levels, each made of the frontier behind it and the vertices seen so far. -/
def levelsFrom (expand : List V → List V → List V) : Nat → List V → List V → List (List V)
  | 0, _, _ => []
  | n + 1, visited, frontier =>
      let level := expand visited frontier
      level :: levelsFrom expand n (visited ++ level) level

theorem length_levelsFrom (expand : List V → List V → List V) : ∀ (n : Nat)
    (visited frontier : List V), (levelsFrom expand n visited frontier).length = n
  | 0, _, _ => rfl
  | n + 1, visited, frontier => by
      rw [levelsFrom, List.length_cons, length_levelsFrom expand n]

theorem mem_levelsFrom {expand : List V → List V → List V} {level : List V} :
    ∀ {n : Nat} {visited frontier : List V}, level ∈ levelsFrom expand n visited frontier →
      ∃ visited' frontier', level = expand visited' frontier'
  | 0, _, _, h => absurd h List.not_mem_nil
  | n + 1, visited, frontier, h => by
      rcases List.mem_cons.mp h with rfl | h
      · exact ⟨visited, frontier, rfl⟩
      · exact mem_levelsFrom h

/-- Where a level holds the new neighbours of the frontier, the levels are the distances. -/
theorem levelsFrom_exact {expand : List V → List V → List V}
    (hexpand : ∀ visited frontier, frontier ⊆ visited → ∀ v,
      v ∈ expand visited frontier ↔ v ∉ visited ∧ ∃ u ∈ frontier, adj u v) :
    ∀ (n k : Nat) (visited frontier : List V),
      (∀ v, v ∈ visited ↔ ∃ m ≤ k, AtDistance adj seed m v) →
      (∀ v, v ∈ frontier ↔ AtDistance adj seed k v) →
      ∀ (i : Nat) (level : List V), (levelsFrom expand n visited frontier)[i]? = some level →
        ∀ v, v ∈ level ↔ AtDistance adj seed (k + 1 + i) v := by
  intro n
  induction n with
  | zero => intro k visited frontier _ _ i level hlevel; cases hlevel
  | succ n ih =>
      intro k visited frontier hvisited hfrontier i level hlevel
      have hsub : frontier ⊆ visited := fun v hv =>
        (hvisited v).mpr ⟨k, Nat.le_refl k, (hfrontier v).mp hv⟩
      have hfirst : ∀ v, v ∈ expand visited frontier ↔ AtDistance adj seed (k + 1) v := by
        intro v
        have hnew : v ∉ visited ↔ ∀ m ≤ k, ¬ AtDistance adj seed m v := by
          rw [hvisited]
          exact ⟨fun h m hm hat => h ⟨m, hm, hat⟩, fun h ⟨m, hm, hat⟩ => h m hm hat⟩
        rw [hexpand visited frontier hsub v, atDistance_succ, hnew, and_comm]
        simp only [hfrontier]
      cases i with
      | zero =>
          obtain rfl : expand visited frontier = level := Option.some.inj hlevel
          exact hfirst
      | succ i =>
          have hstep := ih (k + 1) _ _ (fun v => ?_) hfirst i level hlevel
          · intro v
            rw [hstep, Nat.add_right_comm (k + 1)]
            rfl
          · rw [List.mem_append, hvisited, hfirst]
            constructor
            · rintro (⟨m, hm, hat⟩ | hat)
              · exact ⟨m, by omega, hat⟩
              · exact ⟨k + 1, Nat.le_refl _, hat⟩
            · rintro ⟨m, hm, hat⟩
              rcases Nat.lt_or_eq_of_le hm with hlt | rfl
              · exact .inl ⟨m, by omega, hat⟩
              · exact .inr hat

theorem nodup_flatten_of_distances {levels : List (List V)} {k : Nat}
    (hnodup : ∀ level ∈ levels, level.Nodup)
    (hlevels : ∀ (i : Nat) (level : List V), levels[i]? = some level →
      ∀ v ∈ level, AtDistance adj seed (k + i) v) : levels.flatten.Nodup := by
  refine List.nodup_flatten.mpr ⟨hnodup, List.pairwise_iff_getElem.mpr ?_⟩
  intro i j hi hj hlt v hvi hvj
  have hleft := hlevels i _ (List.getElem?_eq_getElem hi) v hvi
  have hright := hlevels j _ (List.getElem?_eq_getElem hj) v hvj
  have := hleft.unique hright
  omega

end Frontier

end Levels

end Dagayn
