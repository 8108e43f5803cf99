import Mathlib

/-!
# First elements and chunks

`HashSet::insert` in a filter keeps the first element of each key. `keepFirst` is
that filter over any type of elements and keys. `chunksOf` is `chunks(n)` on a slice.
-/

namespace Dagayn

variable {α κ : Type} [DecidableEq κ]

/-- The elements whose key no earlier element has. -/
def keepFirst (key : α → κ) : List α → List α
  | [] => []
  | a :: as => a :: (keepFirst key as).filter fun b => key b ≠ key a

variable {key : α → κ} {as : List α}

theorem mem_of_mem_keepFirst : ∀ {as : List α} {a : α}, a ∈ keepFirst key as → a ∈ as
  | b :: as, a, h => by
      simp only [keepFirst, List.mem_cons, List.mem_filter] at h
      rcases h with rfl | ⟨h, -⟩
      · exact List.mem_cons_self
      · exact List.mem_cons_of_mem _ (mem_of_mem_keepFirst h)

theorem exists_mem_keepFirst : ∀ {as : List α} {a : α}, a ∈ as →
    ∃ b ∈ keepFirst key as, key b = key a
  | b :: as, a, h => by
      by_cases hk : key a = key b
      · exact ⟨b, List.mem_cons_self, hk.symm⟩
      · rcases List.mem_cons.mp h with rfl | h
        · exact absurd rfl hk
        · obtain ⟨c, hc, hck⟩ := exists_mem_keepFirst h
          refine ⟨c, List.mem_cons_of_mem _ (List.mem_filter.mpr ⟨hc, ?_⟩), hck⟩
          simpa [hck] using hk

theorem keepFirst_pairwise (key : α → κ) : ∀ as : List α,
    (keepFirst key as).Pairwise fun a b => key a ≠ key b
  | [] => List.Pairwise.nil
  | a :: as => by
      refine List.pairwise_cons.mpr ⟨fun b hb => ?_, (keepFirst_pairwise key as).filter _⟩
      have hne : key b ≠ key a := by simpa using (List.mem_filter.mp hb).2
      exact hne.symm

theorem keepFirst_nodup (key : α → κ) (as : List α) : (keepFirst key as).Nodup :=
  (keepFirst_pairwise key as).imp fun hne heq => hne (congrArg key heq)

theorem keepFirst_eq_self (h : (as.map key).Nodup) : keepFirst key as = as := by
  induction as with
  | nil => rfl
  | cons a as ih =>
      rw [List.map_cons, List.nodup_cons] at h
      rw [keepFirst, ih h.2]
      refine congrArg (a :: ·) (List.filter_eq_self.mpr fun b hb => decide_eq_true fun heq => ?_)
      exact h.1 (heq ▸ List.mem_map_of_mem hb)

theorem mem_keepFirst_of_inj (hinj : ∀ a ∈ as, ∀ b ∈ as, key a = key b → a = b) {a : α} :
    a ∈ keepFirst key as ↔ a ∈ as := by
  refine ⟨mem_of_mem_keepFirst, fun ha => ?_⟩
  obtain ⟨b, hb, hba⟩ : ∃ b ∈ keepFirst key as, key b = key a := exists_mem_keepFirst ha
  exact hinj b (mem_of_mem_keepFirst hb) a ha hba ▸ hb

theorem keepFirst_perm {bs : List α} (hinj : ∀ a ∈ as, ∀ b ∈ as, key a = key b → a = b)
    (hmem : ∀ a, a ∈ bs ↔ a ∈ as) : (keepFirst key bs).Perm (keepFirst key as) := by
  refine (List.perm_ext_iff_of_nodup (keepFirst_nodup key bs) (keepFirst_nodup key as)).mpr ?_
  intro a
  rw [mem_keepFirst_of_inj hinj, mem_keepFirst_of_inj, hmem]
  exact fun a ha b hb => hinj a ((hmem a).mp ha) b ((hmem b).mp hb)

/-- The loop behind `keepFirst`: the elements whose key is not in a growing set. -/
def freshOf (key : α → κ) (seen : List κ) : List α → List α
  | [] => []
  | a :: as =>
      if key a ∈ seen then freshOf key seen as else a :: freshOf key (key a :: seen) as

def seenAfter (key : α → κ) (seen : List κ) : List α → List κ
  | [] => seen
  | a :: as =>
      if key a ∈ seen then seenAfter key seen as else seenAfter key (key a :: seen) as

theorem freshOf_append (key : α → κ) (bs : List α) : ∀ (as : List α) (seen : List κ),
    freshOf key seen (as ++ bs) = freshOf key seen as ++ freshOf key (seenAfter key seen as) bs
  | [], _ => rfl
  | a :: as, seen => by
      simp only [List.cons_append, freshOf, seenAfter]
      split
      · exact freshOf_append key bs as seen
      · rw [freshOf_append key bs as, List.cons_append]

theorem freshOf_eq_filter (key : α → κ) : ∀ (as : List α) (seen : List κ),
    freshOf key seen as = (keepFirst key as).filter fun a => key a ∉ seen
  | [], _ => rfl
  | a :: as, seen => by
      rw [freshOf, keepFirst]
      by_cases ha : key a ∈ seen
      · rw [if_pos ha, List.filter_cons_of_neg (by simpa using ha), freshOf_eq_filter key as,
          List.filter_filter]
        refine List.filter_congr fun b _ => ?_
        by_cases hb : key b = key a
        · simp [hb, ha]
        · simp [hb]
      · rw [if_neg ha, List.filter_cons_of_pos (by simpa using ha), freshOf_eq_filter key as,
          List.filter_filter]
        congr 1
        refine List.filter_congr fun b _ => ?_
        simp [Bool.and_comm]

theorem freshOf_nil (key : α → κ) (as : List α) : freshOf key [] as = keepFirst key as := by
  rw [freshOf_eq_filter]
  simp

theorem mem_seenAfter {k : κ} : ∀ {as : List α} {seen : List κ},
    k ∈ seenAfter key seen as ↔ k ∈ seen ∨ k ∈ as.map key
  | [], _ => by simp [seenAfter]
  | a :: as, seen => by
      rw [seenAfter, List.map_cons, List.mem_cons]
      split
      · rename_i ha
        rw [mem_seenAfter]
        constructor
        · exact Or.imp_right .inr
        · rintro (hk | rfl | hk)
          · exact .inl hk
          · exact .inl ha
          · exact .inr hk
      · rw [mem_seenAfter, List.mem_cons]
        exact ⟨fun h => h.elim (fun h => h.elim (.inr ∘ .inl) .inl) (.inr ∘ .inr),
          fun h => h.elim (.inl ∘ .inr) fun h => h.elim (.inl ∘ .inl) .inr⟩

theorem keepFirst_append_singleton (key : α → κ) (as : List α) (a : α) :
    keepFirst key (as ++ [a]) = keepFirst key as ++ if key a ∈ as.map key then [] else [a] := by
  rw [← freshOf_nil, freshOf_append, freshOf_nil, freshOf, freshOf]
  have hseen : key a ∈ seenAfter key [] as ↔ key a ∈ as.map key := by
    rw [mem_seenAfter]
    simp
  exact congrArg _ (if_congr hseen rfl rfl)

omit [DecidableEq κ] in
/-- Where all elements with a property are worth the same, it does not show which comes first. -/
theorem map_find?_congr {β : Type} {p : α → Bool} {f : α → β} {bs : List α}
    (hex : (∃ a ∈ as, p a = true) ↔ ∃ b ∈ bs, p b = true)
    (hf : ∀ a ∈ as, ∀ b ∈ bs, p a = true → p b = true → f a = f b) :
    (as.find? p).map f = (bs.find? p).map f := by
  rw [← List.find?_isSome, ← List.find?_isSome] at hex
  cases ha : as.find? p with
  | none =>
      cases hb : bs.find? p with
      | none => rfl
      | some b => simp [ha, hb] at hex
  | some a =>
      cases hb : bs.find? p with
      | none => simp [ha, hb] at hex
      | some b =>
          exact congrArg some (hf a (List.mem_of_find?_eq_some ha) b (List.mem_of_find?_eq_some hb)
            (List.find?_some ha) (List.find?_some hb))

omit [DecidableEq κ] in
theorem bind_find?_congr {β : Type} {p : α → Bool} {f : α → Option β} {bs : List α}
    (hex : (∃ a ∈ as, p a = true) ↔ ∃ b ∈ bs, p b = true)
    (hf : ∀ a ∈ as, ∀ b ∈ bs, p a = true → p b = true → f a = f b) :
    (as.find? p).bind f = (bs.find? p).bind f := by
  have hjoin : ∀ x : Option α, x.bind f = (x.map f).join := fun x => by cases x <;> rfl
  rw [hjoin, hjoin, map_find?_congr hex hf]

theorem forall₂_keepFirst {β : Type} {key' : β → κ} {R : α → β → Prop}
    (hkey : ∀ a b, R a b → key' b = key a) {bs : List β} (h : List.Forall₂ R as bs) :
    List.Forall₂ R (keepFirst key as) (keepFirst key' bs) := by
  rw [← freshOf_nil, ← freshOf_nil]
  generalize ([] : List κ) = seen
  induction h generalizing seen with
  | nil => exact .nil
  | cons hab _ ih =>
      simp only [freshOf, hkey _ _ hab]
      split
      · exact ih seen
      · exact .cons hab (ih _)

theorem perm_flatMap_filter (key : α → κ) {ks : List κ}
    (hnodup : ks.Nodup) (vs : List α) (hcover : ∀ v ∈ vs, key v ∈ ks) :
    (ks.flatMap fun k => vs.filter fun v => key v == k).Perm vs := by
  induction ks generalizing vs with
  | nil =>
      cases vs with
      | nil => exact .nil
      | cons v vs => exact absurd (hcover v List.mem_cons_self) List.not_mem_nil
  | cons k ks ih =>
      obtain ⟨hk, hks⟩ := List.nodup_cons.mp hnodup
      have hrest := ih hks (vs.filter fun v => !(key v == k)) fun v hv => by
        obtain ⟨hv, hne⟩ := List.mem_filter.mp hv
        rcases List.mem_cons.mp (hcover v hv) with heq | hmem
        · simp [heq] at hne
        · exact hmem
      have hsame : (ks.flatMap fun k' => (vs.filter fun v => !(key v == k)).filter
          fun v => key v == k') = ks.flatMap fun k' => vs.filter fun v => key v == k' := by
        refine List.flatMap_congr fun k' hk' => ?_
        rw [List.filter_filter]
        refine List.filter_congr fun v _ => ?_
        have hne : k' ≠ k := fun h => hk (h ▸ hk')
        by_cases hv : key v = k'
        · simp [hv, hne]
        · simp [hv]
      rw [hsame] at hrest
      rw [List.flatMap_cons]
      exact (hrest.append_left _).trans (List.filter_append_perm _ vs)

/-- `chunks(n)`. -/
def chunksOf (n : Nat) (as : List α) : List (List α) :=
  (List.range ((as.length + n - 1) / n)).map fun i => (as.drop (n * i)).take n

theorem mem_chunksOf {n : Nat} (hn : 0 < n) {a : α} :
    (∃ c ∈ chunksOf n as, a ∈ c) ↔ a ∈ as := by
  constructor
  · rintro ⟨c, hc, ha⟩
    obtain ⟨i, -, rfl⟩ := List.mem_map.mp hc
    exact List.mem_of_mem_drop (List.mem_of_mem_take ha)
  · intro ha
    obtain ⟨j, hj, rfl⟩ := List.mem_iff_getElem.mp ha
    have hdiv : n * (j / n) + j % n = j := Nat.div_add_mod j n
    have hmod : j % n < n := Nat.mod_lt j hn
    refine ⟨(as.drop (n * (j / n))).take n, List.mem_map.mpr ⟨j / n, ?_, rfl⟩, ?_⟩
    · rw [List.mem_range, Nat.lt_div_iff_mul_lt hn, Nat.mul_comm]
      omega
    · rw [List.mem_iff_getElem]
      refine ⟨j % n, ?_, ?_⟩
      · rw [List.length_take, List.length_drop]
        omega
      · rw [List.getElem_take, List.getElem_drop]
        congr 1

theorem chunksOf_nil {n : Nat} (hn : 0 < n) : chunksOf n ([] : List α) = [] := by
  have hzero : (([] : List α).length + n - 1) / n = 0 :=
    Nat.div_eq_of_lt (by rw [List.length_nil]; omega)
  unfold chunksOf
  rw [hzero]
  rfl

theorem chunksOf_eq_cons {n : Nat} (hn : 0 < n) (h : as ≠ []) :
    chunksOf n as = as.take n :: chunksOf n (as.drop n) := by
  have hpos : 0 < as.length := List.length_pos_iff.mpr h
  have hcount : (as.length + n - 1) / n = ((as.drop n).length + n - 1) / n + 1 := by
    rw [List.length_drop]
    by_cases hle : n ≤ as.length
    · rw [show as.length + n - 1 = (as.length - n + n - 1) + n by omega,
        Nat.add_div_right _ hn]
    · rw [show as.length - n + n - 1 = n - 1 by omega, Nat.div_eq_of_lt (by omega : n - 1 < n),
        show as.length + n - 1 = (as.length - 1) + n by omega, Nat.add_div_right _ hn,
        Nat.div_eq_of_lt (by omega)]
  unfold chunksOf
  rw [hcount, List.range_succ_eq_map, List.map_cons, List.map_map]
  congr 1
  refine List.map_congr_left fun i _ => ?_
  simp only [Function.comp, List.drop_drop]
  rw [Nat.mul_succ, Nat.add_comm]

theorem flatten_chunksOf {n : Nat} (hn : 0 < n) (as : List α) : (chunksOf n as).flatten = as := by
  induction hlen : as.length using Nat.strongRecOn generalizing as with
  | _ len ih =>
      by_cases hne : as = []
      · subst hne
        rw [chunksOf_nil hn]
        rfl
      · have hpos : 0 < as.length := List.length_pos_iff.mpr hne
        rw [chunksOf_eq_cons hn hne, List.flatten_cons,
          ih (as.drop n).length (by rw [List.length_drop]; omega) _ rfl, List.take_append_drop]

end Dagayn
