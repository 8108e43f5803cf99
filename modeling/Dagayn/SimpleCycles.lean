import Mathlib

/-!
# Simple cycles by depth-first search

The search behind the enumeration of simple cycles, over any ordered vertices: paths from
a start go through larger vertices only, and a path whose end leads back to the start is
a cycle. `explore` is the search as the list of its steps, `consume` a run that stops
when its steps or its room for cycles are used up. `mem_meets_allSteps` says which paths
are met, and `meets_nodup` that none is met twice.
-/

namespace Dagayn

namespace SimpleCycles

/-- A closed walk without repeated vertices, from any of its vertices. -/
structure SimpleCycle {V : Type} (edge : V → V → Prop) (c : List V) : Prop where
  ne_nil : c ≠ []
  nodup : c.Nodup
  chain : c.IsChain edge
  closes : edge (c.getLast ne_nil) (c.head ne_nil)

section SimpleCycle

variable {V W : Type} {edge : V → V → Prop} {edge' : W → W → Prop}

/-- A function that is injective on a cycle and keeps its edges takes it to a cycle. -/
theorem SimpleCycle.map {c : List V} (h : SimpleCycle edge c) {f : V → W}
    (hinj : ∀ u ∈ c, ∀ v ∈ c, f u = f v → u = v)
    (hedge : ∀ u ∈ c, ∀ v ∈ c, edge u v → edge' (f u) (f v)) : SimpleCycle edge' (c.map f) where
  ne_nil := by simpa using h.ne_nil
  nodup := h.nodup.map_on fun u hu v hv => hinj u hu v hv
  chain := by
    rw [List.isChain_map]
    exact h.chain.imp_of_mem_imp fun u v hu hv => hedge u hu v hv
  closes := by
    rw [List.getLast_map, List.head_map]
    exact hedge _ (List.getLast_mem _) _ (List.head_mem _) h.closes

theorem simpleCycle_iff {c : List V} :
    SimpleCycle edge c ↔ c ≠ [] ∧ c.Nodup ∧ Cycle.Chain edge (c : Cycle V) := by
  have hchain : ∀ hne : c ≠ [], Cycle.Chain edge (c : Cycle V) ↔
      c.IsChain edge ∧ edge (c.getLast hne) (c.head hne) := by
    intro hne
    rw [Cycle.chain_ne_nil edge hne, List.isChain_cons, and_comm]
    refine and_congr_right fun _ => ?_
    rw [List.head?_eq_some_head hne]
    simp
  constructor
  · rintro ⟨hne, hnodup, hc, hcloses⟩
    exact ⟨hne, hnodup, (hchain hne).mpr ⟨hc, hcloses⟩⟩
  · rintro ⟨hne, hnodup, hc⟩
    exact ⟨hne, hnodup, ((hchain hne).mp hc).1, ((hchain hne).mp hc).2⟩

theorem SimpleCycle.of_isRotated {c c' : List V} (h : SimpleCycle edge c)
    (hrot : c.IsRotated c') : SimpleCycle edge c' := by
  obtain ⟨hne, hnodup, hchain⟩ := simpleCycle_iff.mp h
  refine simpleCycle_iff.mpr ⟨?_, hrot.nodup_iff.mp hnodup, ?_⟩
  · rintro rfl
    exact hne (List.isRotated_nil_iff.mp hrot)
  · rwa [← Cycle.coe_eq_coe.mpr hrot]

theorem SimpleCycle.exists_edge {c : List V} (h : SimpleCycle edge c) {u : V} (hu : u ∈ c) :
    ∃ v ∈ c, edge u v := by
  obtain ⟨front, back, rfl⟩ := List.append_of_mem hu
  have hrot : (front ++ u :: back).IsRotated (u :: (back ++ front)) :=
    List.isRotated_append
  have hcycle := h.of_isRotated hrot
  cases hrest : back ++ front with
  | nil =>
      rw [hrest] at hcycle
      exact ⟨u, hu, hcycle.closes⟩
  | cons v rest =>
      rw [hrest] at hcycle hrot
      exact ⟨v, hrot.mem_iff.mpr (by simp), (List.isChain_cons_cons.mp hcycle.chain).1⟩

theorem eq_of_isRotated_of_head {c c' : List V} (hnodup : c.Nodup) (hrot : c.IsRotated c')
    (hhead : c.head? = c'.head?) : c = c' := by
  cases c with
  | nil => exact (List.isRotated_nil_iff'.mp hrot)
  | cons u rest =>
      obtain ⟨n, hn, rfl⟩ := List.isRotated_iff_mod.mp hrot
      have hpos : 0 < (u :: rest).length := Nat.succ_pos _
      rcases Nat.lt_or_ge n (u :: rest).length with hlt | hge
      · rw [List.head?_rotate hlt, List.head?_cons, eq_comm, List.getElem?_eq_some_iff] at hhead
        obtain ⟨_, hget⟩ := hhead
        have hget : (u :: rest)[n] = (u :: rest)[0] := hget
        obtain rfl : n = 0 := hnodup.getElem_inj_iff.mp hget
        rw [List.rotate_zero]
      · rw [Nat.le_antisymm hn hge, List.rotate_length]

def StartsLeast (lt : V → V → Prop) (c : List V) : Prop :=
  ∃ start rest, c = start :: rest ∧ ∀ v ∈ rest, lt start v

theorem StartsLeast.eq_of_isRotated {lt : V → V → Prop} (hasymm : ∀ u v, lt u v → ¬ lt v u)
    {c c' : List V} (h : StartsLeast lt c) (h' : StartsLeast lt c') (hnodup : c.Nodup)
    (hrot : c.IsRotated c') : c = c' := by
  refine eq_of_isRotated_of_head hnodup hrot ?_
  obtain ⟨start, rest, rfl, hless⟩ := h
  obtain ⟨start', rest', rfl, hless'⟩ := h'
  have hmem : start ∈ start' :: rest' := hrot.mem_iff.mp List.mem_cons_self
  have hmem' : start' ∈ start :: rest := hrot.mem_iff.mpr List.mem_cons_self
  rcases List.mem_cons.mp hmem with rfl | hmem
  · rfl
  · rcases List.mem_cons.mp hmem' with rfl | hmem'
    · rfl
    · exact absurd (hless' _ hmem) (hasymm _ _ (hless _ hmem'))

theorem exists_startsLeast [LinearOrder V] {c : List V} (hne : c ≠ []) (hnodup : c.Nodup) :
    ∃ c', c.IsRotated c' ∧ StartsLeast (· < ·) c' := by
  have hpos : 0 < c.length := List.length_pos_iff.mpr hne
  have hmem := List.minimum_of_length_pos_mem hpos
  have hle := fun v hv => List.minimum_of_length_pos_le_of_mem (a := v) hv hpos
  generalize List.minimum_of_length_pos hpos = least at hmem hle
  obtain ⟨front, back, rfl⟩ := List.append_of_mem hmem
  have hrot : (front ++ least :: back).IsRotated (least :: (back ++ front)) :=
    List.isRotated_append
  refine ⟨_, hrot, least, back ++ front, rfl, fun v hv => ?_⟩
  have hnot : least ∉ back ++ front := (List.nodup_cons.mp (hrot.nodup_iff.mp hnodup)).1
  refine lt_of_le_of_ne (hle v (hrot.mem_iff.mpr (List.mem_cons_of_mem _ hv))) ?_
  rintro rfl
  exact hnot hv

end SimpleCycle

/-- A step of the search: it meets a cycle, given as the path from its end to the start,
or something else. -/
inductive Step (V : Type) where
  | skip
  | meet (path : List V)

variable {V : Type}

def meets (steps : List (Step V)) : List (List V) :=
  steps.filterMap fun
    | .skip => none
    | .meet path => some path

section Search

variable [LinearOrder V] (succ : V → List V) (start : V) (maxLength : Nat)

/-- The steps at the end of a path whose successors `ns` are still to be tried; `d` more
vertices may join the path. The last step takes the end away. -/
def explore : Nat → List V → List V → List (Step V)
  | _, _, [] => [.skip]
  | d, path, n :: ns =>
      (if n = start then [if path.length ≤ maxLength then .meet path else .skip]
        else if start < n ∧ n ∉ path then
          match d with
          | 0 => [.skip]
          | d + 1 => .skip :: explore d (n :: path) (succ n)
        else [.skip]) ++ explore d path ns
termination_by d _ ns => (d, ns.length)

def startSteps : List (Step V) := explore succ start maxLength (maxLength - 1) [start] (succ start)

def allSteps (starts : List V) : List (Step V) :=
  starts.flatMap fun start => startSteps succ start maxLength

end Search

section Equations

variable [LinearOrder V] (succ : V → List V) (start : V) (maxLength d : Nat) (path : List V)

theorem explore_nil : explore succ start maxLength d path [] = [.skip] := by
  rw [explore.eq_def]

theorem explore_cons (n : V) (ns : List V) :
    explore succ start maxLength d path (n :: ns) =
      (if n = start then [if path.length ≤ maxLength then .meet path else .skip]
        else if start < n ∧ n ∉ path then
          match d with
          | 0 => [.skip]
          | d + 1 => .skip :: explore succ start maxLength d (n :: path) (succ n)
        else [.skip]) ++ explore succ start maxLength d path ns := by
  rw [explore.eq_def]

theorem explore_ne_nil (ns : List V) : explore succ start maxLength d path ns ≠ [] := by
  induction ns with
  | nil => simp [explore_nil]
  | cons n ns ih =>
      rw [explore_cons]
      exact List.append_ne_nil_of_right_ne_nil _ ih

end Equations

/-! ## The steps still to be taken -/

section Rest

variable [LinearOrder V] (succ : V → List V) (start : V) (maxLength : Nat)

/-- At every node of the path, from its end on, the successors in `work` are still to be
tried. -/
def restSteps : List V → List (List V) → List (Step V)
  | node :: below, ns :: work =>
      explore succ start maxLength (maxLength - (node :: below).length) (node :: below) ns ++
        restSteps below work
  | _, _ => []

variable {succ start maxLength} {n node : V} {below ns : List V} {work : List (List V)}

variable (succ start maxLength node below ns work) in
theorem exists_restSteps_cons : ∃ step steps,
    restSteps succ start maxLength (node :: below) (ns :: work) = step :: steps := by
  obtain ⟨step, steps, h⟩ := List.exists_cons_of_ne_nil
    (explore_ne_nil succ start maxLength (maxLength - (node :: below).length) (node :: below) ns)
  exact ⟨step, _, by rw [restSteps, h, List.cons_append]⟩

theorem restSteps_nil : restSteps succ start maxLength (node :: below) ([] :: work) =
    .skip :: restSteps succ start maxLength below work := by
  rw [restSteps, explore_nil, List.singleton_append]

theorem restSteps_start : restSteps succ start maxLength (node :: below) ((start :: ns) :: work) =
    (if (node :: below).length ≤ maxLength then .meet (node :: below) else .skip) ::
      restSteps succ start maxLength (node :: below) (ns :: work) := by
  rw [restSteps, restSteps, explore_cons, if_pos rfl, List.append_assoc, List.singleton_append]

theorem restSteps_push (hlt : start < n) (hnew : n ∉ node :: below)
    (hroom : (node :: below).length < maxLength) :
    restSteps succ start maxLength (node :: below) ((n :: ns) :: work) =
      .skip :: restSteps succ start maxLength (n :: node :: below) (succ n :: ns :: work) := by
  obtain ⟨d, hd⟩ : ∃ d, maxLength - (node :: below).length = d + 1 :=
    ⟨maxLength - (node :: below).length - 1, by omega⟩
  have hd' : maxLength - (n :: node :: below).length = d := by
    rw [List.length_cons]
    omega
  rw [restSteps, restSteps, restSteps, hd, hd', explore_cons, if_neg hlt.ne',
    if_pos ⟨hlt, hnew⟩, List.append_assoc, List.cons_append]

theorem restSteps_pass (hstart : n ≠ start)
    (hstop : ¬(start < n ∧ n ∉ node :: below ∧ (node :: below).length < maxLength)) :
    restSteps succ start maxLength (node :: below) ((n :: ns) :: work) =
      .skip :: restSteps succ start maxLength (node :: below) (ns :: work) := by
  rw [restSteps, restSteps, explore_cons, if_neg hstart]
  by_cases hnew : start < n ∧ n ∉ node :: below
  · have hfull : ¬(node :: below).length < maxLength := fun h => hstop ⟨hnew.1, hnew.2, h⟩
    rw [if_pos hnew, Nat.sub_eq_zero_of_le (Nat.not_lt.mp hfull)]
    rfl
  · rw [if_neg hnew]
    rfl

theorem restSteps_singleton :
    restSteps succ start maxLength [start] [succ start] = startSteps succ start maxLength := by
  rw [restSteps, restSteps, List.append_nil, startSteps, List.length_singleton]
  intro _ _ _ _ h
  cases h

end Rest

theorem meets_append (xs ys : List (Step V)) : meets (xs ++ ys) = meets xs ++ meets ys :=
  List.filterMap_append

@[simp] theorem meets_skip (xs : List (Step V)) : meets (.skip :: xs) = meets xs := rfl

@[simp] theorem meets_meet (path : List V) (xs : List (Step V)) :
    meets (.meet path :: xs) = path :: meets xs := rfl

/-! ## The paths that are met -/

section Meets

variable [LinearOrder V] {succ : V → List V} {start : V} {maxLength : Nat}

/-- The path `p` is met from `path` if its end may go on to `ns`. -/
inductive Leads (succ : V → List V) (start : V) (maxLength : Nat) :
    List V → List V → List V → Prop
  | here {path ns : List V} :
      start ∈ ns → path.length ≤ maxLength → Leads succ start maxLength path ns path
  | push {n : V} {path ns p : List V} :
      n ∈ ns → start < n → n ∉ path → path.length < maxLength →
        Leads succ start maxLength (n :: path) (succ n) p → Leads succ start maxLength path ns p

theorem Leads.mono {path ns ns' p : List V} (h : Leads succ start maxLength path ns p)
    (hsub : ns ⊆ ns') : Leads succ start maxLength path ns' p := by
  cases h with
  | here hmem hle => exact .here (hsub hmem) hle
  | push hmem hlt hnot hle hrest => exact .push (hsub hmem) hlt hnot hle hrest

theorem not_leads_nil {path p : List V} : ¬ Leads succ start maxLength path [] p := by
  intro h
  cases h with
  | here hmem hle => cases hmem
  | push hmem hlt hnot hle hrest => cases hmem

theorem leads_cons {path ns p : List V} {n : V} :
    Leads succ start maxLength path (n :: ns) p ↔
      (n = start ∧ path.length ≤ maxLength ∧ p = path) ∨
        (start < n ∧ n ∉ path ∧ path.length < maxLength ∧
          Leads succ start maxLength (n :: path) (succ n) p) ∨
        Leads succ start maxLength path ns p := by
  constructor
  · intro h
    cases h with
    | here hmem hle =>
        rcases List.mem_cons.mp hmem with rfl | hmem
        · exact .inl ⟨rfl, hle, rfl⟩
        · exact .inr (.inr (.here hmem hle))
    | push hmem hlt hnot hle hrest =>
        rcases List.mem_cons.mp hmem with rfl | hmem
        · exact .inr (.inl ⟨hlt, hnot, hle, hrest⟩)
        · exact .inr (.inr (.push hmem hlt hnot hle hrest))
  · rintro (⟨rfl, hle, rfl⟩ | ⟨hlt, hnot, hle, hrest⟩ | hrest)
    · exact .here List.mem_cons_self hle
    · exact .push List.mem_cons_self hlt hnot hle hrest
    · exact hrest.mono (List.subset_cons_self n ns)

theorem mem_meets_explore (d : Nat) (path ns : List V) (hd : d = maxLength - path.length)
    (p : List V) :
    p ∈ meets (explore succ start maxLength d path ns) ↔ Leads succ start maxLength path ns p := by
  fun_induction explore succ start maxLength d path ns with
  | case1 d path => simp [meets, not_leads_nil]
  | case2 d path n ns ihpush ih =>
      rw [meets_append, List.mem_append, ih hd, leads_cons, ← or_assoc]
      refine or_congr_left ?_
      by_cases hn : n = start
      · subst hn
        rw [if_pos rfl]
        by_cases hle : path.length ≤ maxLength
        · simp [hle, meets]
        · simp [hle, meets]
      · rw [if_neg hn]
        by_cases hnew : start < n ∧ n ∉ path
        · rw [if_pos hnew]
          cases d with
          | zero =>
              have hfull : ¬ path.length < maxLength := by omega
              simp [meets, hn, hfull]
          | succ d =>
              have hroom : path.length < maxLength := by omega
              have hpush := ihpush (by rw [List.length_cons]; omega)
              simp only [meets_skip, hpush, hn, hnew, hroom, false_and, false_or, true_and,
                not_false_eq_true]
        · rw [if_neg hnew]
          have hno : ¬ (start < n ∧ n ∉ path ∧ path.length < maxLength ∧
              Leads succ start maxLength (n :: path) (succ n) p) := fun h => hnew ⟨h.1, h.2.1⟩
          simp [meets, hn, hno]

theorem Leads.suffix {path ns p : List V} (h : Leads succ start maxLength path ns p) :
    path <:+ p := by
  induction h with
  | here _ _ => exact List.suffix_rfl
  | push _ _ _ _ _ ih => exact (List.suffix_cons _ _).trans ih

theorem Leads.eq_or_push {path ns p : List V} (h : Leads succ start maxLength path ns p) :
    (p = path ∧ start ∈ ns) ∨ ∃ n ∈ ns, n :: path <:+ p := by
  cases h with
  | here hmem _ => exact .inl ⟨rfl, hmem⟩
  | push hmem _ _ _ hrest => exact .inr ⟨_, hmem, hrest.suffix⟩

omit [LinearOrder V] in
theorem not_cons_suffix_self (n : V) (path : List V) : ¬ n :: path <:+ path := by
  intro h
  have := h.length_le
  rw [List.length_cons] at this
  omega

omit [LinearOrder V] in
theorem eq_of_cons_suffix {n m : V} {path p : List V} (hn : n :: path <:+ p)
    (hm : m :: path <:+ p) : n = m := by
  have h := List.suffix_of_suffix_length_le hn hm (Nat.le_refl _)
  exact (List.cons.inj (h.eq_of_length rfl)).1

theorem nodup_meets_explore (hsucc : ∀ v, (succ v).Nodup) (d : Nat) (path ns : List V)
    (hd : d = maxLength - path.length) (hns : ns.Nodup) :
    (meets (explore succ start maxLength d path ns)).Nodup := by
  fun_induction explore succ start maxLength d path ns with
  | case1 d path => simp [meets]
  | case2 d path n ns ihpush ih =>
      obtain ⟨hnot, hrest⟩ := List.nodup_cons.mp hns
      -- what is met through `n` goes on to `n`, or is the path itself if `n` is the start
      have hfirst : ∀ branch : List (Step V), (∃ path', branch = [.meet path'] ∧ path' = path ∧
            n = start) ∨ meets branch = [] ∨
            ((meets branch).Nodup ∧ ∀ p ∈ meets branch, n :: path <:+ p) →
          (meets branch ++ meets (explore succ start maxLength d path ns)).Nodup := by
        intro branch hbranch
        refine List.nodup_append.mpr ⟨?_, ih hd hrest, fun p hp q hq hpq => ?_⟩
        · rcases hbranch with ⟨path', rfl, -, -⟩ | hnil | ⟨hnodup, -⟩
          · simp [meets]
          · rw [hnil]
            exact List.nodup_nil
          · exact hnodup
        · subst hpq
          have hleads := ((mem_meets_explore d path ns hd p).mp hq).eq_or_push
          rcases hbranch with ⟨path', rfl, rfl, rfl⟩ | hnil | ⟨-, hthrough⟩
          · obtain rfl : p = path' := by simpa [meets] using hp
            rcases hleads with ⟨-, hmem⟩ | ⟨m, -, hm⟩
            · exact hnot hmem
            · exact not_cons_suffix_self m p hm
          · rw [hnil] at hp
            cases hp
          · have hn := hthrough p hp
            rcases hleads with ⟨rfl, -⟩ | ⟨m, hmem, hm⟩
            · exact not_cons_suffix_self n p hn
            · exact hnot (eq_of_cons_suffix hn hm ▸ hmem)
      rw [meets_append]
      refine hfirst _ ?_
      by_cases hn : n = start
      · rw [if_pos hn]
        by_cases hle : path.length ≤ maxLength
        · exact .inl ⟨path, by rw [if_pos hle], rfl, hn⟩
        · exact .inr (.inl (by rw [if_neg hle]; rfl))
      · rw [if_neg hn]
        by_cases hnew : start < n ∧ n ∉ path
        · rw [if_pos hnew]
          cases d with
          | zero => exact .inr (.inl rfl)
          | succ d =>
              have hd' : d = maxLength - (n :: path).length := by
                rw [List.length_cons]
                omega
              refine .inr (.inr ⟨ihpush hd' (hsucc n), fun p hp => ?_⟩)
              exact ((mem_meets_explore d (n :: path) (succ n) hd' p).mp hp).suffix
        · rw [if_neg hnew]
          exact .inr (.inl rfl)

/-! ## Met paths are simple cycles -/

def Edge (succ : V → List V) (u v : V) : Prop := v ∈ succ u

/-- What leads on from a path with the end `top`: further vertices, each a successor of
the one in front, none of them on the path before, and the last one leads to the start. -/
theorem leads_iff {top : V} {below p : List V} (hnodup : (top :: below).Nodup) :
    Leads succ start maxLength (top :: below) (succ top) p ↔
      ∃ r : List V, p = r.reverse ++ top :: below ∧ (top :: r).IsChain (Edge succ) ∧
        (r.reverse ++ top :: below).Nodup ∧ (∀ v ∈ r, start < v) ∧
        start ∈ succ ((top :: r).getLast (List.cons_ne_nil top r)) ∧ p.length ≤ maxLength := by
  constructor
  · intro h
    generalize hpath : top :: below = path at h hnodup
    generalize hns : succ top = ns at h
    induction h generalizing top below with
    | here hmem hle =>
        subst hpath hns
        exact ⟨[], rfl, List.isChain_singleton _, hnodup, by simp, hmem, hle⟩
    | @push n path ns p hmem hlt hnot hle hrest ih =>
        subst hpath hns
        obtain ⟨r, rfl, hchain, hnodup', hgt, hclose, hlen⟩ :=
          ih rfl (List.nodup_cons.mpr ⟨hnot, hnodup⟩) rfl
        have heq : (n :: r).reverse ++ top :: below = r.reverse ++ n :: top :: below := by simp
        refine ⟨n :: r, heq.symm, List.isChain_cons_cons.mpr ⟨hmem, hchain⟩, heq ▸ hnodup', ?_, ?_,
          hlen⟩
        · exact List.forall_mem_cons.mpr ⟨hlt, hgt⟩
        · rwa [List.getLast_cons (List.cons_ne_nil n r)]
  · rintro ⟨r, rfl, hchain, hnodup', hlt, hclose, hlen⟩
    induction r generalizing top below with
    | nil => exact .here hclose hlen
    | cons n r ih =>
        obtain ⟨hedge, hrest⟩ := List.isChain_cons_cons.mp hchain
        have heq : (n :: r).reverse ++ top :: below = r.reverse ++ n :: top :: below := by simp
        rw [heq] at hnodup' hlen ⊢
        have hpath : (n :: top :: below).Nodup := (List.nodup_append.mp hnodup').2.1
        refine .push hedge (hlt n List.mem_cons_self) (List.nodup_cons.mp hpath).1 ?_
          (ih hpath hrest hnodup' (fun v hv => hlt v (List.mem_cons_of_mem _ hv)) ?_ hlen)
        · simp only [List.length_append, List.length_cons] at hlen ⊢
          omega
        · rwa [List.getLast_cons (List.cons_ne_nil n r)] at hclose

/-- A path met from a start is, read from there, a simple cycle through larger vertices. -/
theorem mem_meets_startSteps {p : List V} :
    p ∈ meets (startSteps succ start maxLength) ↔
      ∃ r : List V, p.reverse = start :: r ∧ SimpleCycle (Edge succ) (start :: r) ∧
        (∀ v ∈ r, start < v) ∧ (start :: r).length ≤ maxLength := by
  rw [startSteps, mem_meets_explore _ _ _ (by rw [List.length_singleton]),
    leads_iff (List.nodup_singleton start)]
  have hrev : ∀ r : List V, (p = r.reverse ++ [start] ↔ p.reverse = start :: r) := by
    intro r
    constructor
    · rintro rfl
      simp
    · intro h
      rw [← List.reverse_reverse p, h, List.reverse_cons]
  constructor
  · rintro ⟨r, hp, hchain, hnodup, hlt, hclose, hlen⟩
    refine ⟨r, (hrev r).mp hp, ⟨List.cons_ne_nil start r, ?_, hchain, hclose⟩, hlt, ?_⟩
    · rw [← List.nodup_reverse, List.reverse_cons]
      exact hnodup
    · rw [← (hrev r).mp hp, List.length_reverse]
      exact hlen
  · rintro ⟨r, hp, ⟨_, hnodup, hchain, hclose⟩, hlt, hlen⟩
    refine ⟨r, (hrev r).mpr hp, hchain, ?_, hlt, hclose, ?_⟩
    · rw [← List.nodup_reverse, List.reverse_cons] at hnodup
      exact hnodup
    · rw [← List.length_reverse, hp]
      exact hlen

theorem mem_meets_allSteps {starts p : List V} :
    p ∈ meets (allSteps succ maxLength starts) ↔
      ∃ start ∈ starts, p ∈ meets (startSteps succ start maxLength) := by
  induction starts with
  | nil => simp [allSteps, meets]
  | cons start starts ih =>
      rw [allSteps, List.flatMap_cons, meets_append, List.mem_append, List.exists_mem_cons_iff]
      exact or_congr_right ih

/-- From all starts the paths met are, read from their starts, the simple cycles that start
at their least vertex. -/
theorem mem_meets_iff {starts p : List V} (hstarts : ∀ u, succ u ≠ [] → u ∈ starts) :
    p ∈ meets (allSteps succ maxLength starts) ↔
      SimpleCycle (Edge succ) p.reverse ∧ StartsLeast (· < ·) p.reverse ∧
        p.length ≤ maxLength := by
  rw [mem_meets_allSteps]
  constructor
  · rintro ⟨start, -, hp⟩
    obtain ⟨r, hr, hcycle, hlt, hlen⟩ := mem_meets_startSteps.mp hp
    refine ⟨hr ▸ hcycle, ⟨start, r, hr, hlt⟩, ?_⟩
    rwa [← List.length_reverse, hr]
  · rintro ⟨hcycle, ⟨start, r, hr, hlt⟩, hlen⟩
    rw [← List.length_reverse] at hlen
    rw [hr] at hcycle hlen
    obtain ⟨v, -, hv⟩ := hcycle.exists_edge List.mem_cons_self
    exact ⟨start, hstarts start (List.ne_nil_of_mem hv),
      mem_meets_startSteps.mpr ⟨r, hr, hcycle, hlt, hlen⟩⟩

theorem meets_nodup (hsucc : ∀ v, (succ v).Nodup) {starts : List V} (hstarts : starts.Nodup) :
    (meets (allSteps succ maxLength starts)).Nodup := by
  induction starts with
  | nil => exact List.nodup_nil
  | cons start starts ih =>
      obtain ⟨hnot, hrest⟩ := List.nodup_cons.mp hstarts
      rw [allSteps, List.flatMap_cons, meets_append]
      refine List.nodup_append.mpr ⟨?_, ih hrest, fun p hp q hq hpq => ?_⟩
      · exact nodup_meets_explore hsucc _ _ _ (by rw [List.length_singleton]) (hsucc start)
      · -- the start is the last vertex of the path
        subst hpq
        obtain ⟨other, hother, hq⟩ := mem_meets_allSteps.mp hq
        obtain ⟨r, hr, -⟩ := mem_meets_startSteps.mp hp
        obtain ⟨r', hr', -⟩ := mem_meets_startSteps.mp hq
        rw [hr] at hr'
        exact hnot ((List.cons.inj hr').1 ▸ hother)

end Meets

/-! ## Runs that stop early -/

/-- What a run has found. -/
structure Found (γ : Type) where
  cycles : List γ
  examined : Nat
  truncated : Bool
deriving DecidableEq

/-- A run over steps, of which at most `remaining` are taken: a met path is counted, and
kept if it is long enough and there is room. -/
def consume {γ : Type} (out : List V → γ) (minSize maxCycles : Nat) :
    Nat → List (Step V) → Found γ → Nat × Found γ
  | remaining, [], found => (remaining, found)
  | 0, _ :: _, found => (0, { found with truncated := true })
  | remaining + 1, .skip :: steps, found => consume out minSize maxCycles remaining steps found
  | remaining + 1, .meet path :: steps, found =>
      let found := { found with examined := found.examined + 1 }
      if maxCycles ≤ found.cycles.length then (remaining, { found with truncated := true })
      else
        consume out minSize maxCycles remaining steps
          (if minSize ≤ path.length then { found with cycles := found.cycles ++ [out path] }
            else found)

section Consume

variable {γ δ : Type} {out : List V → γ} {minSize maxCycles : Nat}

def keptOf (out : List V → γ) (minSize : Nat) (steps : List (Step V)) : List γ :=
  ((meets steps).filter fun p => decide (minSize ≤ p.length)).map out

theorem keptOf_meet (path : List V) (steps : List (Step V)) :
    keptOf out minSize (.meet path :: steps) =
      (if minSize ≤ path.length then [out path] else []) ++ keptOf out minSize steps := by
  unfold keptOf
  rw [meets_meet, List.filter_cons]
  by_cases h : minSize ≤ path.length
  · rw [if_pos h, if_pos (by simpa using h)]
    rfl
  · rw [if_neg h, if_neg (by simpa using h)]
    rfl

variable (out minSize maxCycles) in
/-- A run finds a first part of what is kept of all steps, and all of it unless it is
truncated. -/
theorem consume_spec (remaining : Nat) (steps : List (Step V)) (found : Found γ)
    (h : found.truncated = false) :
    (consume out minSize maxCycles remaining steps found).2.cycles <+:
        found.cycles ++ keptOf out minSize steps ∧
      ((consume out minSize maxCycles remaining steps found).2.truncated = false →
        (consume out minSize maxCycles remaining steps found).2.cycles =
          found.cycles ++ keptOf out minSize steps) := by
  fun_induction consume out minSize maxCycles remaining steps found with
  | case1 remaining found => simp [keptOf, meets]
  | case2 step steps found => exact ⟨List.prefix_append _ _, nofun⟩
  | case3 remaining steps found ih => exact ih h
  | case4 remaining path steps found found' hfull =>
      exact ⟨List.prefix_append _ _, nofun⟩
  | case5 remaining path steps found found' hroom ih =>
      rw [keptOf_meet, ← List.append_assoc]
      by_cases hsize : minSize ≤ path.length
      · simp only [if_pos hsize] at ih ⊢
        exact ih h
      · simp only [if_neg hsize, List.append_nil] at ih ⊢
        exact ih h

variable (out minSize maxCycles) in
theorem consume_complete (remaining : Nat) (steps : List (Step V)) (found : Found γ)
    (h : found.truncated = false) (hsteps : steps.length ≤ remaining)
    (hroom : found.cycles.length + (meets steps).length ≤ maxCycles) :
    (consume out minSize maxCycles remaining steps found).2.truncated = false := by
  fun_induction consume out minSize maxCycles remaining steps found with
  | case1 remaining found => exact h
  | case2 step steps found => simp at hsteps
  | case3 remaining steps found ih => exact ih h (by simpa using hsteps) hroom
  | case4 remaining path steps found found' hfull =>
      rw [meets_meet, List.length_cons] at hroom
      simp only [found'] at hfull
      omega
  | case5 remaining path steps found found' hfree ih =>
      rw [meets_meet, List.length_cons] at hroom
      by_cases hsize : minSize ≤ path.length
      · rw [if_pos hsize] at ih ⊢
        refine ih h (by simpa using hsteps) ?_
        simp only [found', List.length_append, List.length_singleton]
        omega
      · rw [if_neg hsize] at ih ⊢
        refine ih h (by simpa using hsteps) ?_
        simp only [found']
        omega

/-- Steps in two parts: the second part is reached if the first one is not truncated. -/
theorem consume_append (remaining : Nat) (xs ys : List (Step V)) (found : Found γ)
    (h : found.truncated = false) :
    consume out minSize maxCycles remaining (xs ++ ys) found =
      if (consume out minSize maxCycles remaining xs found).2.truncated then
        consume out minSize maxCycles remaining xs found
      else
        consume out minSize maxCycles (consume out minSize maxCycles remaining xs found).1 ys
          (consume out minSize maxCycles remaining xs found).2 := by
  fun_induction consume out minSize maxCycles remaining xs found with
  | case1 remaining found => simp [h]
  | case2 step steps found => simp [consume]
  | case3 remaining steps found ih =>
      rw [List.cons_append, consume]
      exact ih h
  | case4 remaining path steps found found' hfull =>
      rw [List.cons_append, consume, if_pos hfull]
      rfl
  | case5 remaining path steps found found' hfree ih =>
      rw [List.cons_append, consume, if_neg hfree]
      refine ih ?_
      split <;> exact h

def Found.map (f : γ → δ) (found : Found γ) : Found δ :=
  { cycles := found.cycles.map f, examined := found.examined, truncated := found.truncated }

variable (out minSize maxCycles) in
theorem consume_map (f : γ → δ) (remaining : Nat) (steps : List (Step V)) (found : Found γ) :
    consume (f ∘ out) minSize maxCycles remaining steps (found.map f) =
      ((consume out minSize maxCycles remaining steps found).1,
        (consume out minSize maxCycles remaining steps found).2.map f) := by
  fun_induction consume out minSize maxCycles remaining steps found with
  | case1 remaining found => simp [consume]
  | case2 step steps found => rfl
  | case3 remaining steps found ih =>
      rw [consume]
      exact ih
  | case4 remaining path steps found found' hfull =>
      rw [consume]
      simp only [Found.map, List.length_map]
      rw [if_pos hfull]
  | case5 remaining path steps found found' hfree ih =>
      refine Eq.trans ?_ ih
      rw [consume]
      simp only [Found.map, List.length_map]
      rw [if_neg hfree]
      congr 1
      by_cases hsize : minSize ≤ path.length
      · simp [hsize, found']
      · simp [hsize, found']

theorem consume_congr {out' : List V → γ} (remaining : Nat) (steps : List (Step V))
    (found : Found γ) (h : ∀ p ∈ meets steps, out p = out' p) :
    consume out minSize maxCycles remaining steps found =
      consume out' minSize maxCycles remaining steps found := by
  fun_induction consume out minSize maxCycles remaining steps found with
  | case1 remaining found => simp [consume]
  | case2 step steps found => simp [consume]
  | case3 remaining steps found ih =>
      rw [consume]
      exact ih h
  | case4 remaining path steps found found' hfull =>
      rw [consume]
      exact (if_pos hfull).symm
  | case5 remaining path steps found found' hfree ih =>
      obtain ⟨hpath, hrest⟩ := List.forall_mem_cons.mp h
      rw [consume, if_neg hfree, ih hrest, hpath]

end Consume

end SimpleCycles

end Dagayn
