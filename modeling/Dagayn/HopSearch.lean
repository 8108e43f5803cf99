import Dagayn.Distinct
import Dagayn.Levels

/-!
# Searches with edges that lead no further

A search hop by hop over two kinds of edges with one set of seen vertices: behind an edge of
the first kind the search goes on, a vertex met by one of the second kind is left where it
is. A vertex that an edge of the second kind meets too early is then lost for the search.
`Quiet` says that this happens to no vertex up to a distance, `met_iff` that each of them is
then met at the hop of its distance, and `quiet_of_met` that `Quiet` is needed for that.
-/

namespace Dagayn

namespace HopSearch

open Levels

/-- The two kinds of edges into a frontier, and the vertex behind each. -/
structure TwoKinds (V E : Type) where
  key : E → V
  past : List V → List E
  aside : List V → List E
  Past : E → V → Prop
  Aside : E → V → Prop
  mem_past : ∀ {frontier e}, e ∈ past frontier ↔ ∃ u ∈ frontier, Past e u
  mem_aside : ∀ {frontier e}, e ∈ aside frontier ↔ ∃ u ∈ frontier, Aside e u

/-- What a hop starts from. -/
structure Front (V : Type) where
  seen : List V
  frontier : List V

variable {V E : Type} [DecidableEq V] (s : TwoKinds V E)

namespace TwoKinds

def Adj (u v : V) : Prop := ∃ e, s.Past e u ∧ s.key e = v

def Uses (u v : V) : Prop := ∃ e, s.Aside e u ∧ s.key e = v

/-- The edges a hop follows, those that are walked past first. -/
def layer (f : Front V) : List E := freshOf s.key f.seen (s.past f.frontier ++ s.aside f.frontier)

def next (f : Front V) : Front V where
  seen := seenAfter s.key f.seen (s.past f.frontier ++ s.aside f.frontier)
  frontier := (freshOf s.key f.seen (s.past f.frontier)).map s.key

def front (first : Front V) : Nat → Front V
  | 0 => first
  | i + 1 => s.next (front first i)

variable {s} {f : Front V} {v : V}

theorem mem_map_freshOf {key : E → V} {seen : List V} {edges : List E} :
    v ∈ (freshOf key seen edges).map key ↔ v ∉ seen ∧ ∃ e ∈ edges, key e = v := by
  rw [freshOf_eq_filter, List.mem_map]
  constructor
  · rintro ⟨e, he, rfl⟩
    rw [List.mem_filter] at he
    exact ⟨of_decide_eq_true he.2, e, mem_of_mem_keepFirst he.1, rfl⟩
  · rintro ⟨hnew, e, he, rfl⟩
    obtain ⟨e', he', hkey⟩ : ∃ e' ∈ keepFirst key edges, key e' = key e := exists_mem_keepFirst he
    exact ⟨e', List.mem_filter.mpr ⟨he', decide_eq_true (hkey ▸ hnew)⟩, hkey⟩

theorem mem_next_frontier :
    v ∈ (s.next f).frontier ↔ v ∉ f.seen ∧ ∃ u ∈ f.frontier, s.Adj u v := by
  rw [next, mem_map_freshOf]
  refine and_congr_right fun _ => ?_
  simp only [s.mem_past, Adj]
  exact ⟨fun ⟨e, ⟨u, hu, he⟩, hkey⟩ => ⟨u, hu, e, he, hkey⟩,
    fun ⟨u, hu, e, he, hkey⟩ => ⟨e, ⟨u, hu, he⟩, hkey⟩⟩

theorem mem_keys_layer :
    v ∈ (s.layer f).map s.key ↔
      v ∉ f.seen ∧ ∃ u ∈ f.frontier, s.Adj u v ∨ s.Uses u v := by
  rw [layer, mem_map_freshOf]
  refine and_congr_right fun _ => ?_
  simp only [List.mem_append, s.mem_past, s.mem_aside, Adj, Uses]
  constructor
  · rintro ⟨e, ⟨u, hu, he⟩ | ⟨u, hu, he⟩, hkey⟩
    · exact ⟨u, hu, .inl ⟨e, he, hkey⟩⟩
    · exact ⟨u, hu, .inr ⟨e, he, hkey⟩⟩
  · rintro ⟨u, hu, ⟨e, he, hkey⟩ | ⟨e, he, hkey⟩⟩
    · exact ⟨e, .inl ⟨u, hu, he⟩, hkey⟩
    · exact ⟨e, .inr ⟨u, hu, he⟩, hkey⟩

theorem mem_next_seen :
    v ∈ (s.next f).seen ↔ v ∈ f.seen ∨ v ∈ (s.layer f).map s.key := by
  rw [next, layer, mem_seenAfter, mem_map_freshOf]
  by_cases hv : v ∈ f.seen
  · simp [hv]
  · simp [hv, or_and_right, exists_or]

theorem mem_layer_of_mem_next (h : v ∈ (s.next f).frontier) : v ∈ (s.layer f).map s.key := by
  obtain ⟨hnew, u, hu, hadj⟩ := mem_next_frontier.mp h
  exact mem_keys_layer.mpr ⟨hnew, u, hu, .inl hadj⟩

theorem keys_layer_nodup (f : Front V) : ((s.layer f).map s.key).Nodup := by
  rw [layer, freshOf_eq_filter]
  exact List.pairwise_map.mpr ((keepFirst_pairwise s.key _).filter _)

theorem layer_of_nil (h : f.frontier = []) : s.layer f = [] := by
  have hpast : s.past [] = [] := by
    rw [List.eq_nil_iff_forall_not_mem]
    exact fun e he => by simpa using s.mem_past.mp he
  have haside : s.aside [] = [] := by
    rw [List.eq_nil_iff_forall_not_mem]
    exact fun e he => by simpa using s.mem_aside.mp he
  rw [layer, h, hpast, haside]
  rfl

theorem frontier_of_nil {first : Front V} {i j : Nat} (h : (s.front first i).frontier = [])
    (hij : i ≤ j) : (s.front first j).frontier = [] := by
  induction hij with
  | refl => exact h
  | step _ ih =>
      rw [List.eq_nil_iff_forall_not_mem]
      intro v hv
      have hmem := mem_layer_of_mem_next hv
      rw [layer_of_nil ih] at hmem
      exact List.not_mem_nil hmem

end TwoKinds

/-! ## Distances

The distances are taken from the vertices of the first frontier. One vertex, the one the
search is for, is seen from the beginning and listed by no hop. -/

open TwoKinds

abbrev At (first : Front V) : Nat → V → Prop := AtDistance s.Adj (· ∈ first.frontier)

/-- What the first hop leaves behind: no way through the start leads beyond it. -/
structure Begins (first : Front V) (start : V) : Prop where
  start_mem : start ∈ first.seen
  frontier_sub : ∀ v ∈ first.frontier, v ∈ first.seen
  behind : ∀ {n v}, Walk s.Adj (· ∈ first.frontier) n start → s.Adj start v →
    v ∈ first.frontier

/-- No vertex up to the distance `d` is seen at first without being in the frontier, or met by
an edge of the second kind before the hop of its distance. -/
structure Quiet (first : Front V) (start : V) (d : Nat) : Prop where
  seen : ∀ {v k}, v ≠ start → At s first k v → k ≤ d → v ∈ first.seen → k = 0
  uses : ∀ {v k u i}, v ≠ start → At s first k v → k ≤ d → At s first i u → i + 1 < k →
    (u ≠ start ∨ i = 0) → ¬ s.Uses u v

/-- The `i`-th front holds the vertices at distance `i`. -/
structure Level (first : Front V) (start : V) (d i : Nat) : Prop where
  start_mem : start ∈ (s.front first i).seen
  start_new : 0 < i → start ∉ (s.front first i).frontier
  frontier : ∀ {v}, v ≠ start ∨ i = 0 → (v ∈ (s.front first i).frontier ↔ At s first i v)
  seen : ∀ {v k}, v ≠ start → At s first k v → k ≤ d → (v ∈ (s.front first i).seen ↔ k ≤ i)

variable {s} {first : Front V} {start : V} {d i k : Nat} {u v : V}

theorem Begins.level (h : Begins s first start)
    (hseen : ∀ {v k}, v ≠ start → At s first k v → k ≤ d → v ∈ first.seen → k = 0) :
    Level s first start d 0 where
  start_mem := h.start_mem
  start_new h0 := absurd h0 (Nat.lt_irrefl 0)
  frontier _ := atDistance_zero.symm
  seen {v k} hv hat hk := by
    constructor
    · intro hmem
      exact Nat.le_of_eq (hseen hv hat hk hmem)
    · intro hle
      obtain rfl : k = 0 := Nat.le_zero.mp hle
      exact h.frontier_sub v (atDistance_zero.mp hat)

theorem Level.at_of_mem (h : Level s first start d i) (hu : u ∈ (s.front first i).frontier) :
    (u ≠ start ∨ i = 0) ∧ At s first i u := by
  have hcase : u ≠ start ∨ i = 0 := by
    rcases Nat.eq_zero_or_pos i with h0 | hpos
    · exact .inr h0
    · exact .inl fun heq => h.start_new hpos (heq ▸ hu)
  exact ⟨hcase, (h.frontier hcase).mp hu⟩

theorem Level.mem_next (h : Level s first start d i) (hb : Begins s first start)
    (hv : v ≠ start) (hat : At s first (i + 1) v) (hd : i + 1 ≤ d) :
    v ∈ (s.front first (i + 1)).frontier := by
  obtain ⟨⟨u, hu, hadj⟩, hnot⟩ := atDistance_succ.mp hat
  have hcase : u ≠ start ∨ i = 0 := by
    by_contra hboth
    have heq : u = start := by tauto
    rw [heq] at hu hadj
    exact hnot 0 (Nat.zero_le i) (atDistance_zero.mpr (hb.behind hu.1 hadj))
  refine mem_next_frontier.mpr ⟨fun hmem => ?_, u, (h.frontier hcase).mpr hu, hadj⟩
  have hle := (h.seen hv hat hd).mp hmem
  omega

theorem Level.step (h : Level s first start d i) (hb : Begins s first start) (hd : i + 1 ≤ d)
    (hmet : ∀ {v k}, v ≠ start → At s first k v → k ≤ d →
      v ∈ (s.layer (s.front first i)).map s.key → k = i + 1) :
    Level s first start d (i + 1) where
  start_mem := mem_next_seen.mpr (.inl h.start_mem)
  start_new _ hmem := (mem_next_frontier.mp hmem).1 h.start_mem
  frontier {v} hcase := by
    have hv : v ≠ start := hcase.resolve_right (by omega)
    refine ⟨fun hmem => ?_, fun hat => h.mem_next hb hv hat hd⟩
    obtain ⟨hnew, u, hu, hadj⟩ := mem_next_frontier.mp hmem
    refine atDistance_succ.mpr ⟨⟨u, (h.at_of_mem hu).2, hadj⟩, fun k hk hat => ?_⟩
    exact hnew ((h.seen hv hat (by omega)).mpr hk)
  seen {v k} hv hat hk := by
    rw [front, mem_next_seen, h.seen hv hat hk]
    constructor
    · rintro (hle | hmem)
      · omega
      · exact Nat.le_of_eq (hmet hv hat hk hmem)
    · intro hle
      rcases Nat.lt_or_eq_of_le hle with hlt | rfl
      · exact .inl (by omega)
      · exact .inr (mem_layer_of_mem_next (h.mem_next hb hv hat hd))

theorem Level.met_of_quiet (h : Level s first start d i) (hq : Quiet s first start d)
    (hv : v ≠ start) (hat : At s first k v) (hk : k ≤ d)
    (hmem : v ∈ (s.layer (s.front first i)).map s.key) : k = i + 1 := by
  obtain ⟨hnew, u, hu, hedge⟩ := mem_keys_layer.mp hmem
  have hlate : i + 1 ≤ k := by
    by_contra hlt
    exact hnew ((h.seen hv hat hk).mpr (by omega))
  obtain ⟨hcase, hatu⟩ := h.at_of_mem hu
  rcases hedge with hadj | huse
  · obtain ⟨m, hm, hatm⟩ := (Walk.step hatu.1 hadj).exists_atDistance
    have := hat.unique hatm
    omega
  · by_contra hne
    exact hq.uses hv hat hk hatu (by omega) hcase huse

theorem Quiet.level (hq : Quiet s first start d) (hb : Begins s first start) :
    ∀ {i}, i ≤ d → Level s first start d i
  | 0, _ => hb.level hq.seen
  | i + 1, hi => by
      have h : Level s first start d i := hq.level hb (by omega)
      exact h.step hb hi fun hv hat hk hmem => h.met_of_quiet hq hv hat hk hmem

theorem Quiet.met_iff (hq : Quiet s first start d) (hb : Begins s first start) (hv : v ≠ start)
    (hat : At s first k v) (hk : k ≤ d) (hi : i < d) :
    v ∈ (s.layer (s.front first i)).map s.key ↔ k = i + 1 := by
  have h : Level s first start d i := hq.level hb (by omega)
  refine ⟨h.met_of_quiet hq hv hat hk, ?_⟩
  rintro rfl
  exact mem_layer_of_mem_next (h.mem_next hb hv hat hk)

/-- Every vertex up to the distance is met only by the hop of its distance. -/
structure OnTime (s : TwoKinds V E) (first : Front V) (start : V) (d : Nat) : Prop where
  seen : ∀ {v k}, v ≠ start → At s first k v → k ≤ d → v ∈ first.seen → k = 0
  met : ∀ {v k i}, v ≠ start → At s first k v → k ≤ d → i < d →
    v ∈ (s.layer (s.front first i)).map s.key → k = i + 1

theorem OnTime.level (h : OnTime s first start d) (hb : Begins s first start) :
    ∀ {i}, i ≤ d → Level s first start d i
  | 0, _ => hb.level h.seen
  | i + 1, hi => (h.level hb (by omega)).step hb hi fun hv hat hk hmem =>
      h.met hv hat hk (by omega) hmem

theorem OnTime.quiet (h : OnTime s first start d) (hb : Begins s first start) :
    Quiet s first start d where
  seen := h.seen
  uses {v k u i} hv hat hk hatu hi hcase huse := by
    have hlevel : Level s first start d i := h.level hb (by omega)
    have hmem : v ∈ (s.layer (s.front first i)).map s.key := by
      refine mem_keys_layer.mpr ⟨fun hseen => ?_, u, (hlevel.frontier hcase).mpr hatu, .inr huse⟩
      have := (hlevel.seen hv hat hk).mp hseen
      omega
    have := h.met hv hat hk (by omega) hmem
    omega

theorem Level.eq_start_of_nil (h : Level s first start d i) (hb : Begins s first start)
    (hnil : (s.front first i).frontier = []) (hik : i ≤ k) (hat : At s first k v) :
    v = start := by
  induction hik generalizing v with
  | refl =>
      by_contra hv
      have hmem := (h.frontier (.inl hv)).mpr hat
      rw [hnil] at hmem
      exact List.not_mem_nil hmem
  | step _ ih =>
      obtain ⟨⟨u, hu, hadj⟩, hnot⟩ := atDistance_succ.mp hat
      obtain rfl := ih hu
      exact absurd (atDistance_zero.mpr (hb.behind hu.1 hadj)) (hnot 0 (Nat.zero_le _))

end HopSearch

end Dagayn
