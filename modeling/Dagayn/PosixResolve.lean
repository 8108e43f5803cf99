import Mathlib
import Dagayn.Utf8

/-!
# Resolving a path one component after the other

What a path stands for in a file system with symbolic links: `Resolve` takes the components
from the left, joins a missing one on, takes `..` off and reads the target of a link in its
place. A link that leads back to itself has no resolution, and `Resolve` counts how deep the
links nest so that this can be proved.
-/

namespace Dagayn

namespace PyPath

/-- The bytes of a name or of a path. -/
abbrev Bytes := List UInt8

def nul : UInt8 := 0

def dot : UInt8 := 46

def slash : UInt8 := 47

/-- A path from the root, by its components. -/
abbrev Path := List Bytes

def pathText (p : Path) : Bytes := if p = [] then [slash] else p.flatMap (slash :: ·)

/-- Bytes that can stand between two slashes of a path. -/
def Clean (name : Bytes) : Prop := slash ∉ name ∧ nul ∉ name

/-- Neither empty nor `.` nor `..`. -/
def IsName (name : Bytes) : Prop := name ≠ [] ∧ name ≠ [dot] ∧ name ≠ [dot, dot]

instance : DecidablePred IsName := fun name =>
  inferInstanceAs (Decidable (name ≠ [] ∧ name ≠ [dot] ∧ name ≠ [dot, dot]))

def Proper (p : Path) : Prop := ∀ name ∈ p, IsName name ∧ Clean name

/-! ## Paths as texts -/

theorem pathText_of_ne {p : Path} (h : p ≠ []) : pathText p = p.flatMap (slash :: ·) := if_neg h

theorem proper_nil : Proper [] := fun _ h => absurd h List.not_mem_nil

theorem Proper.append {p q : Path} (hp : Proper p) (hq : Proper q) : Proper (p ++ q) :=
  fun name h => (List.mem_append.mp h).elim (hp name) (hq name)

theorem Proper.snoc {p : Path} {name : Bytes} (hp : Proper p) (hname : IsName name)
    (hclean : Clean name) : Proper (p ++ [name]) :=
  hp.append fun _ h => List.mem_singleton.mp h ▸ ⟨hname, hclean⟩

theorem Proper.dropLast {p : Path} (hp : Proper p) : Proper p.dropLast :=
  fun name h => hp name (p.dropLast_subset h)

theorem flatMap_slash (p : Path) : p.flatMap (slash :: ·) = [slash].intercalate ([] :: p) := by
  induction p with
  | nil => rfl
  | cons name p ih =>
      rw [List.flatMap_cons, ih]
      cases p <;> simp [List.intercalate, List.intersperse]

theorem splitOn_flatMap {p : Path} (h : ∀ name ∈ p, slash ∉ name) :
    (p.flatMap (slash :: ·)).splitOn slash = [] :: p := by
  rw [flatMap_slash]
  refine List.splitOn_intercalate slash (fun name hname => ?_) (List.cons_ne_nil _ _)
  rcases List.mem_cons.mp hname with rfl | hname
  · exact List.not_mem_nil
  · exact h name hname

theorem splitOn_pathText {p : Path} (hp : Proper p) :
    ((pathText p).splitOn slash).filter (· ≠ []) = p := by
  have hne : p.filter (· ≠ []) = p :=
    List.filter_eq_self.mpr fun name h => by simpa using (hp name h).1.1
  by_cases hnil : p = []
  · subst hnil; decide
  · rw [pathText_of_ne hnil, splitOn_flatMap fun name h => (hp name h).2.1, List.filter_cons_of_neg
      (by simp), hne]

theorem pathText_inj {p q : Path} (hp : Proper p) (hq : Proper q) (h : pathText p = pathText q) :
    p = q := by rw [← splitOn_pathText hp, h, splitOn_pathText hq]

theorem mem_of_mem_splitOn {t name : Bytes} (h : name ∈ t.splitOn slash) :
    ∀ b ∈ name, b ∈ t ∧ b ≠ slash := by
  induction t generalizing name with
  | nil =>
      rw [List.splitOn, List.splitOnP_nil, List.mem_singleton] at h
      simp [h]
  | cons a t ih =>
      rw [List.splitOn, List.splitOnP_cons_eq_if_modifyHead] at h
      split at h
      · rcases List.mem_cons.mp h with rfl | h
        · simp
        · exact fun b hb => ⟨List.mem_cons_of_mem _ (ih h b hb).1, (ih h b hb).2⟩
      · rename_i ha
        obtain ⟨first, others, hsplit⟩ := List.exists_cons_of_ne_nil
          (List.splitOnP_ne_nil (· == slash) t)
        rw [hsplit, List.modifyHead_cons, List.mem_cons] at h
        have hin : ∀ part ∈ first :: others, ∀ b ∈ part, b ∈ t ∧ b ≠ slash :=
          fun part hpart => ih (by rw [List.splitOn, hsplit]; exact hpart)
        rcases h with rfl | h
        · intro b hb
          rcases List.mem_cons.mp hb with rfl | hb
          · exact ⟨List.mem_cons_self, by simpa using ha⟩
          · exact ⟨List.mem_cons_of_mem _ (hin first List.mem_cons_self b hb).1,
              (hin first List.mem_cons_self b hb).2⟩
        · exact fun b hb => ⟨List.mem_cons_of_mem _ (hin name (List.mem_cons_of_mem _ h) b hb).1,
            (hin name (List.mem_cons_of_mem _ h) b hb).2⟩

theorem clean_of_mem_splitOn {t : Bytes} (hnul : nul ∉ t) : ∀ name ∈ t.splitOn slash, Clean name :=
  fun _ h => ⟨fun hs => (mem_of_mem_splitOn h _ hs).2 rfl,
    fun hn => hnul (mem_of_mem_splitOn h _ hn).1⟩

/-! ## Links -/

/-- What `symlink_metadata` and `read_link` say of a path: there is nothing, there is something
else, or a link with its target, `none` where that cannot be read. -/
inductive Stat
  | missing
  | other
  | link (target : Option Bytes)

/-- Where the target of a link in a directory starts from. -/
def rootOf (dir : Path) (target : Bytes) : Path := if target.head? = some slash then [] else dir

section Resolve

variable (lstat : Bytes → Stat)

/-- `parts` resolved from `dir` on, through at most `n` links inside one another. -/
inductive Resolve : Nat → Path → List Bytes → Path → Prop
  | done {n dir} : Resolve n dir [] dir
  | skip {n dir name rest p} : name = [] ∨ name = [dot] → Resolve n dir rest p →
      Resolve n dir (name :: rest) p
  | up {n dir rest p} : Resolve n dir.dropLast rest p → Resolve n dir ([dot, dot] :: rest) p
  | plain {n dir name rest p} : IsName name →
      (∀ t, lstat (pathText (dir ++ [name])) ≠ .link (some t)) →
      Resolve n (dir ++ [name]) rest p → Resolve n dir (name :: rest) p
  | link {n dir name rest t q p} : IsName name →
      lstat (pathText (dir ++ [name])) = .link (some t) →
      Resolve n (rootOf dir t) (t.splitOn slash) q → Resolve (n + 1) q rest p →
      Resolve (n + 1) dir (name :: rest) p

/-- `parts` resolved from `dir` on, however deep the links nest. -/
def Resolves (dir : Path) (parts : List Bytes) (p : Path) : Prop :=
  ∃ n, Resolve lstat n dir parts p

/-- What the target of the link at a path resolves to. -/
def Target (n : Nat) (link : Path) (q : Path) : Prop :=
  ∃ t, lstat (pathText link) = .link (some t) ∧
    Resolve lstat n (rootOf link.dropLast t) (t.splitOn slash) q

def LinkFree (dir : Path) : Prop :=
  ∀ p, p ≠ [] → p <+: dir → ∀ t, lstat (pathText p) ≠ .link t

def Stuck (link : Path) : Prop :=
  (∃ t, lstat (pathText link) = .link t) ∧ ∀ n q, ¬ Target lstat n link q

end Resolve

/-- A file system with finitely many links. A path is followed through the links in front of its
last component, so a link is met under many paths, and under one without a link before it. -/
structure FileSystem where
  lstat : Bytes → Stat
  links : List Bytes
  complete : ∀ dir name, LinkFree lstat dir → IsName name → Clean name →
    ∀ t, lstat (pathText (dir ++ [name])) = .link t → pathText (dir ++ [name]) ∈ links
  /-- Nothing is found behind a link that leads nowhere. -/
  below : ∀ link rest, LinkFree lstat link.dropLast → Stuck lstat link → rest ≠ [] →
    ∀ t, lstat (pathText (link ++ rest)) ≠ .link t
  target_nul : ∀ text t, lstat text = .link (some t) → nul ∉ t

variable {lstat : Bytes → Stat}

/-! ## Resolution step by step -/

theorem Resolve.mono {n m : Nat} {dir p : Path} {parts : List Bytes}
    (h : Resolve lstat n dir parts p) (hle : n ≤ m) : Resolve lstat m dir parts p := by
  induction h generalizing m with
  | done => exact .done
  | skip hname _ ih => exact .skip hname (ih hle)
  | up _ ih => exact .up (ih hle)
  | plain hname hstat _ ih => exact .plain hname hstat (ih hle)
  | link hname hstat _ _ ihq ih =>
      cases m with
      | zero => exact absurd hle (Nat.not_succ_le_zero _)
      | succ m => exact .link hname hstat (ihq (Nat.le_of_succ_le_succ hle)) (ih hle)

theorem resolve_nil {n : Nat} {dir p : Path} : Resolve lstat n dir [] p ↔ p = dir :=
  ⟨fun h => by cases h; rfl, fun h => h ▸ .done⟩

theorem resolve_skip {n : Nat} {dir p : Path} {name : Bytes} {rest : List Bytes}
    (hname : name = [] ∨ name = [dot]) :
    Resolve lstat n dir (name :: rest) p ↔ Resolve lstat n dir rest p := by
  refine ⟨fun h => ?_, .skip hname⟩
  cases h with
  | skip _ h => exact h
  | up h => exact absurd hname (by decide)
  | plain hn => rcases hname with rfl | rfl <;> exact absurd hn (by decide)
  | link hn => rcases hname with rfl | rfl <;> exact absurd hn (by decide)

theorem resolve_up {n : Nat} {dir p : Path} {rest : List Bytes} :
    Resolve lstat n dir ([dot, dot] :: rest) p ↔ Resolve lstat n dir.dropLast rest p := by
  refine ⟨fun h => ?_, .up⟩
  cases h with
  | skip hname => exact absurd hname (by decide)
  | up h => exact h
  | plain hn => exact absurd hn (by decide)
  | link hn => exact absurd hn (by decide)

theorem resolve_plain {n : Nat} {dir p : Path} {name : Bytes} {rest : List Bytes}
    (hname : IsName name) (hstat : ∀ t, lstat (pathText (dir ++ [name])) ≠ .link (some t)) :
    Resolve lstat n dir (name :: rest) p ↔ Resolve lstat n (dir ++ [name]) rest p := by
  refine ⟨fun h => ?_, .plain hname hstat⟩
  cases h with
  | skip hskip => rcases hskip with rfl | rfl <;> exact absurd hname (by decide)
  | up h => exact absurd hname (by decide)
  | plain _ _ h => exact h
  | link _ ht => exact absurd ht (hstat _)

theorem target_iff {n : Nat} {dir q : Path} {name t : Bytes}
    (hstat : lstat (pathText (dir ++ [name])) = .link (some t)) :
    Target lstat n (dir ++ [name]) q ↔ Resolve lstat n (rootOf dir t) (t.splitOn slash) q := by
  rw [Target, List.dropLast_concat]
  constructor
  · rintro ⟨t', ht', hq⟩
    obtain rfl : t = t' := by simpa [hstat] using ht'
    exact hq
  · exact fun hq => ⟨t, hstat, hq⟩

theorem resolve_link {n : Nat} {dir p : Path} {name t : Bytes} {rest : List Bytes}
    (hname : IsName name) (hstat : lstat (pathText (dir ++ [name])) = .link (some t)) :
    Resolve lstat (n + 1) dir (name :: rest) p ↔
      ∃ q, Target lstat n (dir ++ [name]) q ∧ Resolve lstat (n + 1) q rest p := by
  constructor
  · intro h
    cases h with
    | skip hskip => rcases hskip with rfl | rfl <;> exact absurd hname (by decide)
    | up h => exact absurd hname (by decide)
    | plain _ hnone => exact absurd hstat (hnone _)
    | link _ ht hq h => exact ⟨_, (target_iff ht).mpr hq, h⟩
  · rintro ⟨q, hq, h⟩
    exact .link hname hstat ((target_iff hstat).mp hq) h

theorem not_resolve_link {dir p : Path} {name t : Bytes} {rest : List Bytes}
    (hname : IsName name) (hstat : lstat (pathText (dir ++ [name])) = .link (some t)) :
    ¬ Resolve lstat 0 dir (name :: rest) p := by
  intro h
  cases h with
  | skip hskip => rcases hskip with rfl | rfl <;> exact absurd hname (by decide)
  | up h => exact absurd hname (by decide)
  | plain _ hnone => exact absurd hstat (hnone _)

theorem Target.mono {n m : Nat} {link q : Path} (h : Target lstat n link q) (hle : n ≤ m) :
    Target lstat m link q :=
  let ⟨t, ht, hq⟩ := h
  ⟨t, ht, hq.mono hle⟩

/-! ## Paths without links that lead on -/

theorem LinkFree.parent {dir : Path} (h : LinkFree lstat dir) : LinkFree lstat dir.dropLast :=
  fun p hne hp => h p hne (hp.trans (List.dropLast_prefix dir))

theorem linkFree_nil : LinkFree lstat [] := fun _ hne hp => absurd (List.prefix_nil.mp hp) hne

theorem LinkFree.snoc {dir : Path} {name : Bytes} (h : LinkFree lstat dir)
    (hstat : ∀ t, lstat (pathText (dir ++ [name])) ≠ .link t) : LinkFree lstat (dir ++ [name]) := by
  intro p hne hp
  rcases List.prefix_concat_iff.mp hp with rfl | hp
  · exact hstat
  · exact h p hne hp

/-- A path on which a link, when there is one, leads nowhere. -/
def Settled (lstat : Bytes → Stat) (dir : Path) : Prop :=
  LinkFree lstat dir ∨ ∃ link rest, dir = link ++ rest ∧ link ≠ [] ∧
    LinkFree lstat link.dropLast ∧ Stuck lstat link

theorem Settled.parent {dir : Path} (h : Settled lstat dir) : Settled lstat dir.dropLast := by
  rcases h with h | ⟨link, rest, rfl, hne, hfree, hstuck⟩
  · exact .inl h.parent
  · by_cases hrest : rest = []
    · subst hrest
      rw [List.append_nil]
      exact .inl hfree
    · rw [List.dropLast_append_of_ne_nil hrest]
      exact .inr ⟨link, rest.dropLast, rfl, hne, hfree, hstuck⟩

theorem stuck_unreadable {link : Path} (h : lstat (pathText link) = .link none) :
    Stuck lstat link :=
  ⟨⟨none, h⟩, fun n q ⟨t, ht, _⟩ => by simp [h] at ht⟩

theorem Settled.plain {dir : Path} {name : Bytes} (h : Settled lstat dir)
    (hstat : ∀ t, lstat (pathText (dir ++ [name])) ≠ .link (some t)) :
    Settled lstat (dir ++ [name]) := by
  rcases h with h | ⟨link, rest, rfl, hne, hfree, hstuck⟩
  · cases hs : lstat (pathText (dir ++ [name])) with
    | missing => exact .inl (h.snoc fun t ht => by simp [hs] at ht)
    | other => exact .inl (h.snoc fun t ht => by simp [hs] at ht)
    | link t =>
        cases t with
        | none => exact .inr ⟨dir ++ [name], [], by simp, by simp, by simpa using h,
            stuck_unreadable hs⟩
        | some t => exact absurd hs (hstat t)
  · exact .inr ⟨link, rest ++ [name], by simp, hne, hfree, hstuck⟩

theorem Settled.linkFree {fs : FileSystem} {dir : Path} {name : Bytes} {t : Option Bytes}
    (h : Settled fs.lstat dir) (hstat : fs.lstat (pathText (dir ++ [name])) = .link t) :
    LinkFree fs.lstat dir := by
  rcases h with h | ⟨link, rest, rfl, hne, hfree, hstuck⟩
  · exact h
  · rw [List.append_assoc] at hstat
    exact absurd hstat (fs.below link (rest ++ [name]) hfree hstuck (by simp) t)

theorem Settled.stuck {dir : Path} {name : Bytes} (h : LinkFree lstat dir)
    (hstuck : Stuck lstat (dir ++ [name])) : Settled lstat (dir ++ [name]) :=
  .inr ⟨dir ++ [name], [], by simp, by simp, by simpa using h, hstuck⟩

/-! ## What resolution leaves on a path -/

/-- No link that can be read lies on the path. -/
def Plain (lstat : Bytes → Stat) (dir : Path) : Prop :=
  ∀ p, p ≠ [] → p <+: dir → ∀ t, lstat (pathText p) ≠ .link (some t)

theorem LinkFree.plain {dir : Path} (h : LinkFree lstat dir) : Plain lstat dir :=
  fun p hne hp t => h p hne hp (some t)

theorem Resolve.keeps_plain {n : Nat} {dir p : Path} {parts : List Bytes}
    (h : Resolve lstat n dir parts p) (hdir : Plain lstat dir) : Plain lstat p := by
  induction h with
  | done => exact hdir
  | skip _ _ ih => exact ih hdir
  | up _ ih => exact ih fun p hne hp => hdir p hne (hp.trans (List.dropLast_prefix _))
  | plain _ hstat _ ih =>
      refine ih fun p hne hp => ?_
      rcases List.prefix_concat_iff.mp hp with rfl | hp
      · exact hstat
      · exact hdir p hne hp
  | link _ _ _ _ ihq ih =>
      refine ih (ihq fun p hne hp => ?_)
      unfold rootOf at hp
      split at hp
      · exact absurd (List.prefix_nil.mp hp) hne
      · exact hdir p hne hp

end PyPath

end Dagayn
