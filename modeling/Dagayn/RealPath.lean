import Dagayn.PosixResolve

/-!
# Python's `os.path.realpath`

`realpath` keeps the components that are still to be read on a stack. A link puts the components
of its target on top, and below them a marker with the link's own path, so that the result is
known when the link is met again. A link met while its target is still being read is a loop and
stays in the path.

`Inv` reads the stack as the links that are open, each with what is left to read behind it.
`realpath_resolves`: the loop ends, no link is read twice, and what it returns is what
`Resolve` says unless a loop was met.
-/

namespace Dagayn

namespace PyPath

/-! ## The code -/

def toStr (bytes : Bytes) : Option Bytes :=
  if utf8 (fromUtf8Lossy bytes) = bytes then some bytes else none

/-- `str::rfind` of one byte. -/
def rfind (b : UInt8) : Bytes → Option Nat
  | [] => none
  | a :: text =>
      match rfind b text with
      | some i => some (i + 1)
      | none => if a = b then some 0 else none

/-- The branch of `..`. -/
def parentText (resolved : Bytes) : Bytes :=
  let cut := (rfind slash resolved).getD 0
  let truncated := resolved.take cut
  if truncated = [] then [slash] else truncated

def childText (resolved name : Bytes) : Bytes :=
  if resolved = [slash] then slash :: name else resolved ++ slash :: name

/-- The variables of the loop. In `rest`, last in the source and first here, `none` marks a
resolved target. `reads` lists the links whose target was read and `looped` says that the branch
of a loop was taken: the code keeps neither. -/
structure Walk where
  rest : List (Option Bytes)
  partCount : Nat
  resolved : Bytes
  seen : Bytes → Option (Option Bytes)
  reads : List Bytes
  looped : Bool

structure Outcome where
  result : Option Bytes
  reads : List Bytes
  looped : Bool

/-- `return None`. -/
def Walk.fail (w : Walk) : Outcome := ⟨none, w.reads, w.looped⟩

/-- One turn of the loop: what it returns, or the variables after it. -/
def step (lstat : Bytes → Stat) (w : Walk) : Outcome ⊕ Walk :=
  match w.rest with
  | [] => .inl w.fail
  | none :: some link :: rest =>
      .inr { w with rest := rest, seen := Function.update w.seen link (some (some w.resolved)) }
  | none :: _ => .inl w.fail
  | some name :: rest =>
      let w := { w with rest := rest, partCount := w.partCount - 1 }
      if name = [] ∨ name = [dot] then .inr w
      else if name = [dot, dot] then .inr { w with resolved := parentText w.resolved }
      else
        let next := childText w.resolved name
        match lstat next with
        | .missing => .inr { w with resolved := next }
        | .other => .inr { w with resolved := next }
        | .link target =>
            match w.seen next with
            | some (some known) => .inr { w with resolved := known }
            | some none => .inr { w with resolved := next, looped := true }
            | none =>
                match target with
                | none => .inr { w with resolved := next }
                | some bytes =>
                    let w := { w with reads := next :: w.reads }
                    match toStr bytes with
                    | none => .inl w.fail
                    | some target =>
                        let parts := target.splitOn slash
                        .inr { w with
                          resolved := if target.head? = some slash then [slash] else w.resolved
                          seen := Function.update w.seen next (some none)
                          rest := parts.map some ++ none :: some next :: w.rest
                          partCount := w.partCount + parts.length }

/-- The loop with a bound on its turns, `none` when that is reached. -/
def run (lstat : Bytes → Stat) (fuel : Nat) (w : Walk) : Option Outcome :=
  if w.partCount = 0 then some ⟨some w.resolved, w.reads, w.looped⟩
  else
    match fuel with
    | 0 => none
    | fuel + 1 =>
        match step lstat w with
        | .inl out => some out
        | .inr w => run lstat fuel w

def initial (path resolved : Bytes) : Walk where
  rest := (path.splitOn slash).map some
  partCount := (path.splitOn slash).length
  resolved := resolved
  seen := fun _ => none
  reads := []
  looped := false

/-- `cwd`: `current_dir`, `none` when it fails. -/
def realpath (lstat : Bytes → Stat) (cwd : Option Bytes) (path : Bytes) (fuel : Nat) :
    Option Outcome :=
  if nul ∈ path then some ⟨none, [], false⟩
  else
    let resolved := if path.head? = some slash then some [slash] else cwd.bind toStr
    match resolved with
    | none => some ⟨none, [], false⟩
    | some resolved => run lstat fuel (initial path resolved)

/-! ## The texts that the loop makes -/

theorem rfind_eq_none {b : UInt8} {text : Bytes} (h : b ∉ text) : rfind b text = none := by
  induction text with
  | nil => rfl
  | cons a text ih =>
      rw [List.mem_cons, not_or] at h
      simp [rfind, ih h.2, Ne.symm h.1]

theorem rfind_append {b : UInt8} {text name : Bytes} (h : b ∉ name) :
    rfind b (text ++ b :: name) = some text.length := by
  induction text with
  | nil => simp [rfind, rfind_eq_none h]
  | cons a text ih => simp [rfind, ih]

theorem childText_pathText {dir : Path} {name : Bytes} (hdir : Proper dir) :
    childText (pathText dir) name = pathText (dir ++ [name]) := by
  have hsnoc : pathText (dir ++ [name]) = dir.flatMap (slash :: ·) ++ slash :: name := by
    simp [pathText]
  by_cases hnil : dir = []
  · subst hnil
    simp [childText, pathText]
  · have hroot : pathText dir ≠ [slash] := fun h => hnil (pathText_inj hdir proper_nil h)
    rw [childText, if_neg hroot, hsnoc, pathText_of_ne hnil]

theorem parentText_pathText {dir : Path} (hdir : Proper dir) :
    parentText (pathText dir) = pathText dir.dropLast := by
  rcases List.eq_nil_or_concat dir with rfl | ⟨parent, name, rfl⟩
  · rfl
  · rw [List.concat_eq_append] at hdir ⊢
    have hname : slash ∉ name := (hdir name (by simp)).2.1
    have hsnoc : pathText (parent ++ [name]) = parent.flatMap (slash :: ·) ++ slash :: name := by
      simp [pathText]
    rw [List.dropLast_concat, hsnoc, parentText, rfind_append hname, pathText]
    simp only [Option.getD_some, List.take_left']
    refine if_congr ?_ rfl rfl
    cases parent <;> simp

/-! ## The stack as the links that are open -/

/-- A link whose target is being read, with the components that are left behind it. -/
structure Frame where
  link : Path
  rest : List Bytes

def stackOf (seg : List Bytes) : List Frame → List (Option Bytes)
  | [] => seg.map some
  | f :: frames => seg.map some ++ none :: some (pathText f.link) :: stackOf f.rest frames

def countOf (seg : List Bytes) : List Frame → Nat
  | [] => seg.length
  | f :: frames => seg.length + countOf f.rest frames

theorem stackOf_cons (name : Bytes) (seg : List Bytes) (frames : List Frame) :
    stackOf (name :: seg) frames = some name :: stackOf seg frames := by cases frames <;> rfl

theorem countOf_cons (name : Bytes) (seg : List Bytes) (frames : List Frame) :
    countOf (name :: seg) frames = countOf seg frames + 1 := by
  cases frames <;> simp [countOf]
  omega

/-- Where the resolution ends up: the rest of the innermost target, and then what is left behind
each open link, one level further out every time. -/
def Leads (lstat : Bytes → Stat) (n : Nat) (dir : Path) (seg : List Bytes) :
    List Frame → Path → Prop
  | [], p => Resolve lstat n dir seg p
  | f :: frames, p => ∃ q, Resolve lstat n dir seg q ∧ Leads lstat (n + 1) q f.rest frames p

variable {lstat : Bytes → Stat}

theorem Leads.innermost {n : Nat} {dir p : Path} {seg : List Bytes} {frames : List Frame}
    (h : Leads lstat n dir seg frames p) : ∃ q, Resolve lstat n dir seg q := by
  cases frames with
  | nil => exact ⟨p, h⟩
  | cons f frames => exact ⟨h.choose, h.choose_spec.1⟩

theorem Leads.mono {n m : Nat} {dir p : Path} {seg : List Bytes} {frames : List Frame}
    (h : Leads lstat n dir seg frames p) (hle : n ≤ m) : Leads lstat m dir seg frames p := by
  induction frames generalizing n m dir seg with
  | nil => exact Resolve.mono h hle
  | cons f frames ih =>
      obtain ⟨q, hq, hrest⟩ := h
      exact ⟨q, hq.mono hle, ih hrest (Nat.succ_le_succ hle)⟩

theorem Leads.imp {n : Nat} {dir dir' p : Path} {seg seg' : List Bytes} {frames : List Frame}
    (h : Leads lstat n dir seg frames p)
    (himp : ∀ q, Resolve lstat n dir seg q → Resolve lstat n dir' seg' q) :
    Leads lstat n dir' seg' frames p := by
  cases frames with
  | nil => exact himp p h
  | cons f frames => exact ⟨h.choose, himp _ h.choose_spec.1, h.choose_spec.2⟩

theorem leads_leave {n : Nat} {dir p : Path} {f : Frame} {frames : List Frame} :
    Leads lstat n dir [] (f :: frames) p ↔ Leads lstat (n + 1) dir f.rest frames p :=
  ⟨fun ⟨_, hq, h⟩ => resolve_nil.mp hq ▸ h, fun h => ⟨dir, .done, h⟩⟩

theorem leads_enter {n : Nat} {dir p : Path} {name t : Bytes} {seg : List Bytes}
    {frames : List Frame} (hname : IsName name)
    (hstat : lstat (pathText (dir ++ [name])) = .link (some t)) :
    Leads lstat (n + 1) dir (name :: seg) frames p ↔
      Leads lstat n (rootOf dir t) (t.splitOn slash) (⟨dir ++ [name], seg⟩ :: frames) p := by
  have hlink : ∀ p', Resolve lstat (n + 1) dir (name :: seg) p' ↔
      ∃ q, Resolve lstat n (rootOf dir t) (t.splitOn slash) q ∧
        Resolve lstat (n + 1) q seg p' := fun p' => by
    simp only [resolve_link hname hstat, target_iff hstat]
  cases frames with
  | nil => exact hlink p
  | cons f frames =>
      constructor
      · rintro ⟨p', hp', h⟩
        obtain ⟨q, hq, hrest⟩ := (hlink p').mp hp'
        exact ⟨q, hq, p', hrest, h⟩
      · rintro ⟨q, hq, p', hrest, h⟩
        exact ⟨p', (hlink p').mpr ⟨q, hq, hrest⟩, h⟩

theorem leads_done {n : Nat} {dir p : Path} {frames : List Frame} (h : countOf [] frames = 0) :
    Leads lstat n dir [] frames p ↔ p = dir := by
  induction frames generalizing n with
  | nil => exact resolve_nil
  | cons f frames ih =>
      have hrest : f.rest = [] := by
        cases hf : f.rest with
        | nil => rfl
        | cons name seg => simp [countOf, hf, countOf_cons] at h
      rw [leads_leave, hrest]
      exact ih (by simpa [countOf, hrest] using h)

/-! ## What holds at each turn -/

/-- An origin resolves to what the loop is on the way to: `n` levels for the origin are fewer for
the links that are open inside it. -/
def Tracks (lstat : Bytes → Stat) (origin : Nat → Path → Prop) (dir : Path) (seg : List Bytes)
    (frames : List Frame) : Prop :=
  ∀ n p, origin n p → ∃ d, d + frames.length = n ∧ Leads lstat d dir seg frames p

/-- What the loop is on the way to is what the origin resolves to. -/
def Builds (lstat : Bytes → Stat) (origin : Nat → Path → Prop) (dir : Path) (seg : List Bytes)
    (frames : List Frame) : Prop :=
  ∀ d p, Leads lstat d dir seg frames p → ∃ n, origin n p

structure Inv (fs : FileSystem) (start : Nat → Path → Prop) (w : Walk) (dir : Path)
    (seg : List Bytes) (frames : List Frame) : Prop where
  rest : w.rest = stackOf seg frames
  count : w.partCount = countOf seg frames
  resolved : w.resolved = pathText dir
  proper : Proper dir
  settled : Settled fs.lstat dir
  clean : ∀ name ∈ seg, Clean name
  frames_clean : ∀ f ∈ frames, Proper f.link ∧ ∀ name ∈ f.rest, Clean name
  frames_link : ∀ f ∈ frames, ∃ t, fs.lstat (pathText f.link) = .link (some t)
  pending : ∀ link, Proper link → w.seen (pathText link) = some none →
    ∃ f ∈ frames, f.link = link
  known : ∀ link text, Proper link → w.seen (pathText link) = some (some text) →
    ∃ p, text = pathText p ∧ Proper p ∧ Settled fs.lstat p ∧
      (∀ n q, Target fs.lstat n link q → q = p) ∧
      (w.looped = false → ∃ n, Target fs.lstat n link p)
  seen_link : ∀ text, w.seen text ≠ none → ∃ t, fs.lstat text = .link (some t)
  reads_nodup : w.reads.Nodup
  reads_seen : ∀ link ∈ w.reads, w.seen link ≠ none
  tracks : Tracks fs.lstat start dir seg frames
  builds : w.looped = false → Builds fs.lstat start dir seg frames
  stuck : w.looped = true → ∀ n p, ¬ start n p
  tracks_link : ∀ above f below, frames = above ++ f :: below →
    Tracks fs.lstat (Target fs.lstat · f.link) dir seg above
  builds_link : w.looped = false → ∀ above f below, frames = above ++ f :: below →
    Builds fs.lstat (Target fs.lstat · f.link) dir seg above

variable {fs : FileSystem} {start : Nat → Path → Prop} {w : Walk} {dir : Path} {seg : List Bytes}
  {frames : List Frame} {name : Bytes}

theorem Tracks.imp {origin : Nat → Path → Prop} {dir' : Path} {seg' : List Bytes}
    (h : Tracks lstat origin dir seg frames)
    (himp : ∀ n q, Resolve lstat n dir seg q → Resolve lstat n dir' seg' q) :
    Tracks lstat origin dir' seg' frames :=
  fun n p hp => let ⟨d, hd, hlead⟩ := h n p hp; ⟨d, hd, hlead.imp (himp d)⟩

theorem Builds.imp {origin : Nat → Path → Prop} {dir' : Path} {seg' : List Bytes}
    (h : Builds lstat origin dir seg frames)
    (himp : ∀ n q, Resolve lstat n dir' seg' q → ∃ m, n ≤ m ∧ Resolve lstat m dir seg q) :
    Builds lstat origin dir' seg' frames := by
  intro d p hp
  cases frames with
  | nil => exact let ⟨m, _, hm⟩ := himp d p hp; h m p hm
  | cons f frames =>
      obtain ⟨q, hq, hrest⟩ := hp
      obtain ⟨m, hle, hm⟩ := himp d q hq
      exact h m p ⟨q, hm, Leads.mono hrest (Nat.succ_le_succ hle)⟩

theorem Inv.advance {dir' : Path} {looped : Bool} (h : Inv fs start w dir (name :: seg) frames)
    (hproper : Proper dir') (hsettled : Settled fs.lstat dir')
    (hforth : ∀ n q, Resolve fs.lstat n dir (name :: seg) q → Resolve fs.lstat n dir' seg q)
    (hback : looped = false → w.looped = false ∧ ∀ n q, Resolve fs.lstat n dir' seg q →
      ∃ m, n ≤ m ∧ Resolve fs.lstat m dir (name :: seg) q)
    (hloop : looped = true → w.looped = true ∨
      ∀ n q, ¬ Resolve fs.lstat n dir (name :: seg) q) :
    Inv fs start { w with
      rest := stackOf seg frames, partCount := w.partCount - 1, resolved := pathText dir',
      looped := looped } dir' seg frames where
  rest := rfl
  count := by simp [h.count, countOf_cons]
  resolved := rfl
  proper := hproper
  settled := hsettled
  clean := fun n hn => h.clean n (List.mem_cons_of_mem _ hn)
  frames_clean := h.frames_clean
  frames_link := h.frames_link
  pending := h.pending
  known := fun link text hlink hseen => by
    obtain ⟨p, htext, hp, hset, htarget, hconv⟩ := h.known link text hlink hseen
    exact ⟨p, htext, hp, hset, htarget, fun hf => hconv (hback hf).1⟩
  seen_link := h.seen_link
  reads_nodup := h.reads_nodup
  reads_seen := h.reads_seen
  tracks := h.tracks.imp hforth
  builds := fun hf => (h.builds (hback hf).1).imp (hback hf).2
  stuck := fun ht n p hp => by
    rcases hloop ht with hw | hnone
    · exact h.stuck hw n p hp
    · obtain ⟨d, _, hlead⟩ := h.tracks n p hp
      exact hlead.innermost.elim (hnone d)
  tracks_link := fun above f below hf => (h.tracks_link above f below hf).imp hforth
  builds_link := fun hf above f below hfr =>
    (h.builds_link (hback hf).1 above f below hfr).imp (hback hf).2

theorem Inv.leave {f : Frame} (h : Inv fs start w dir [] (f :: frames)) :
    Inv fs start { w with
      rest := stackOf f.rest frames
      seen := Function.update w.seen (pathText f.link) (some (some w.resolved)) }
      dir f.rest frames where
  rest := rfl
  count := by simp [h.count, countOf]
  resolved := h.resolved
  proper := h.proper
  settled := h.settled
  clean := (h.frames_clean f List.mem_cons_self).2
  frames_clean := fun g hg => h.frames_clean g (List.mem_cons_of_mem _ hg)
  frames_link := fun g hg => h.frames_link g (List.mem_cons_of_mem _ hg)
  pending := fun link hlink hseen => by
    dsimp only at hseen
    by_cases heq : pathText link = pathText f.link
    · simp [heq] at hseen
    · rw [Function.update_of_ne heq] at hseen
      obtain ⟨g, hg, rfl⟩ := h.pending link hlink hseen
      rcases List.mem_cons.mp hg with rfl | hg
      · exact absurd rfl heq
      · exact ⟨g, hg, rfl⟩
  known := fun link text hlink hseen => by
    dsimp only at hseen
    by_cases heq : pathText link = pathText f.link
    · obtain rfl : link = f.link :=
        pathText_inj hlink (h.frames_clean f List.mem_cons_self).1 heq
      obtain rfl : w.resolved = text := by simpa using hseen
      refine ⟨dir, h.resolved, h.proper, h.settled, fun n q hq => ?_, fun hf => ?_⟩
      · obtain ⟨d, _, hlead⟩ := h.tracks_link [] f frames rfl n q hq
        exact resolve_nil.mp hlead
      · exact h.builds_link hf [] f frames rfl 0 dir .done
    · exact h.known link text hlink (by rwa [Function.update_of_ne heq] at hseen)
  seen_link := fun text hseen => by
    dsimp only at hseen
    by_cases heq : text = pathText f.link
    · exact h.frames_link f List.mem_cons_self |>.imp fun t ht => heq ▸ ht
    · exact h.seen_link text (by rwa [Function.update_of_ne heq] at hseen)
  reads_nodup := h.reads_nodup
  reads_seen := fun link hlink => by
    dsimp only at hlink ⊢
    by_cases heq : link = pathText f.link
    · simp [heq]
    · rw [Function.update_of_ne heq]
      exact h.reads_seen link hlink
  tracks := fun n p hp => by
    obtain ⟨d, hd, hlead⟩ := h.tracks n p hp
    exact ⟨d + 1, by rw [← hd, List.length_cons]; omega, leads_leave.mp hlead⟩
  builds := fun hf d p hlead => h.builds hf d p (leads_leave.mpr (hlead.mono (Nat.le_succ d)))
  stuck := h.stuck
  tracks_link := fun above g below hfr n p hp => by
    obtain ⟨d, hd, hlead⟩ := h.tracks_link (f :: above) g below (by rw [hfr]; rfl) n p hp
    exact ⟨d + 1, by rw [← hd, List.length_cons]; omega, leads_leave.mp hlead⟩
  builds_link := fun hf above g below hfr d p hlead =>
    h.builds_link hf (f :: above) g below (by rw [hfr]; rfl) d p
      (leads_leave.mpr (hlead.mono (Nat.le_succ d)))

theorem Tracks.enter {origin : Nat → Path → Prop} {t : Bytes} (hname : IsName name)
    (hstat : lstat (pathText (dir ++ [name])) = .link (some t))
    (h : Tracks lstat origin dir (name :: seg) frames) :
    Tracks lstat origin (rootOf dir t) (t.splitOn slash) (⟨dir ++ [name], seg⟩ :: frames) := by
  intro n p hp
  obtain ⟨d, hd, hlead⟩ := h n p hp
  cases d with
  | zero => exact absurd hlead.innermost.choose_spec (not_resolve_link hname hstat)
  | succ d => exact ⟨d, by rw [← hd, List.length_cons]; omega, (leads_enter hname hstat).mp hlead⟩

theorem Builds.enter {origin : Nat → Path → Prop} {t : Bytes} (hname : IsName name)
    (hstat : lstat (pathText (dir ++ [name])) = .link (some t))
    (h : Builds lstat origin dir (name :: seg) frames) :
    Builds lstat origin (rootOf dir t) (t.splitOn slash) (⟨dir ++ [name], seg⟩ :: frames) :=
  fun d p hlead => h (d + 1) p ((leads_enter hname hstat).mpr hlead)

theorem Proper.rootOf {t : Bytes} (h : Proper dir) : Proper (rootOf dir t) := by
  unfold PyPath.rootOf
  split
  · exact proper_nil
  · exact h

theorem Settled.rootOf {t : Bytes} (h : Settled lstat dir) : Settled lstat (rootOf dir t) := by
  unfold PyPath.rootOf
  split
  · exact .inl linkFree_nil
  · exact h

theorem Inv.enter {t : Bytes} (h : Inv fs start w dir (name :: seg) frames) (hname : IsName name)
    (hstat : fs.lstat (pathText (dir ++ [name])) = .link (some t))
    (hnew : w.seen (pathText (dir ++ [name])) = none) :
    Inv fs start { w with
      reads := pathText (dir ++ [name]) :: w.reads
      resolved := pathText (rootOf dir t)
      seen := Function.update w.seen (pathText (dir ++ [name])) (some none)
      rest := stackOf (t.splitOn slash) (⟨dir ++ [name], seg⟩ :: frames)
      partCount := w.partCount - 1 + (t.splitOn slash).length }
      (rootOf dir t) (t.splitOn slash) (⟨dir ++ [name], seg⟩ :: frames) where
  rest := rfl
  count := by simp [h.count, countOf, countOf_cons, Nat.add_comm]
  resolved := rfl
  proper := h.proper.rootOf
  settled := h.settled.rootOf
  clean := clean_of_mem_splitOn (fs.target_nul _ t hstat)
  frames_clean := fun f hf => by
    rcases List.mem_cons.mp hf with rfl | hf
    · exact ⟨h.proper.snoc hname (h.clean name List.mem_cons_self),
        fun n hn => h.clean n (List.mem_cons_of_mem _ hn)⟩
    · exact h.frames_clean f hf
  frames_link := fun f hf => by
    rcases List.mem_cons.mp hf with rfl | hf
    · exact ⟨t, hstat⟩
    · exact h.frames_link f hf
  pending := fun link hlink hseen => by
    dsimp only at hseen
    by_cases heq : pathText link = pathText (dir ++ [name])
    · exact ⟨_, List.mem_cons_self, (pathText_inj hlink
        (h.proper.snoc hname (h.clean name List.mem_cons_self)) heq).symm⟩
    · rw [Function.update_of_ne heq] at hseen
      obtain ⟨f, hf, rfl⟩ := h.pending link hlink hseen
      exact ⟨f, List.mem_cons_of_mem _ hf, rfl⟩
  known := fun link text hlink hseen => by
    dsimp only at hseen
    by_cases heq : pathText link = pathText (dir ++ [name])
    · simp [heq] at hseen
    · exact h.known link text hlink (by rwa [Function.update_of_ne heq] at hseen)
  seen_link := fun text hseen => by
    dsimp only at hseen
    by_cases heq : text = pathText (dir ++ [name])
    · exact ⟨t, heq ▸ hstat⟩
    · exact h.seen_link text (by rwa [Function.update_of_ne heq] at hseen)
  reads_nodup := List.nodup_cons.mpr ⟨fun hmem => h.reads_seen _ hmem hnew, h.reads_nodup⟩
  reads_seen := fun link hlink => by
    dsimp only at hlink ⊢
    by_cases heq : link = pathText (dir ++ [name])
    · simp [heq]
    · rw [Function.update_of_ne heq]
      exact h.reads_seen link ((List.mem_cons.mp hlink).resolve_left heq)
  tracks := h.tracks.enter hname hstat
  builds := fun hf => (h.builds hf).enter hname hstat
  stuck := h.stuck
  tracks_link := fun above f below hfr => by
    cases above with
    | nil =>
        obtain ⟨rfl, rfl⟩ := List.cons.inj hfr
        exact fun n p hp => ⟨n, rfl, (target_iff hstat).mp hp⟩
    | cons g above =>
        obtain ⟨rfl, htail⟩ := List.cons.inj hfr
        exact (h.tracks_link above f below htail).enter hname hstat
  builds_link := fun hf above f below hfr => by
    cases above with
    | nil =>
        obtain ⟨rfl, rfl⟩ := List.cons.inj hfr
        exact fun d p hp => ⟨d, (target_iff hstat).mpr hp⟩
    | cons g above =>
        obtain ⟨rfl, htail⟩ := List.cons.inj hfr
        exact (h.builds_link hf above f below htail).enter hname hstat

/-- A link that is met while it is open leads nowhere: its resolution would go through itself, on
a lower level. -/
theorem Inv.loop {t : Bytes} (h : Inv fs start w dir (name :: seg) frames)
    (hname : IsName name) (hstat : fs.lstat (pathText (dir ++ [name])) = .link (some t))
    (hpending : w.seen (pathText (dir ++ [name])) = some none) :
    Stuck fs.lstat (dir ++ [name]) := by
  refine ⟨⟨some t, hstat⟩, ?_⟩
  obtain ⟨f, hf, hlink⟩ := h.pending _
    (h.proper.snoc hname (h.clean name List.mem_cons_self)) hpending
  obtain ⟨above, below, hfr⟩ := List.append_of_mem hf
  intro n
  induction n using Nat.strongRecOn with
  | _ n ih =>
      intro q hq
      obtain ⟨d, hd, hlead⟩ := h.tracks_link above f below hfr n q (by rwa [hlink])
      obtain ⟨p, hp⟩ := hlead.innermost
      cases d with
      | zero => exact not_resolve_link hname hstat hp
      | succ d =>
          obtain ⟨q', hq', _⟩ := (resolve_link hname hstat).mp hp
          exact ih d (by omega) q' hq'

/-! ## The loop ends -/

def unread (fs : FileSystem) (w : Walk) : Nat := (fs.links.filter (· ∉ w.reads)).length

/-- Fewer links to read, or as many and less on the stack. -/
def Less (fs : FileSystem) (w' w : Walk) : Prop :=
  unread fs w' < unread fs w ∨ w'.reads = w.reads ∧ w'.rest.length < w.rest.length

theorem unread_lt {w' : Walk} {link : Bytes} (hlink : link ∈ fs.links) (hnew : link ∉ w.reads)
    (hreads : w'.reads = link :: w.reads) : unread fs w' < unread fs w := by
  have hfilter : fs.links.filter (· ∉ w'.reads) =
      (fs.links.filter (· ∉ w.reads)).filter (· ≠ link) := by
    rw [List.filter_filter, hreads]
    refine List.filter_congr fun x _ => ?_
    simp [not_or]
  rw [unread, hfilter]
  refine List.length_filter_lt_length_iff_exists.mpr ⟨link, ?_, by simp⟩
  exact List.mem_filter.mpr ⟨hlink, by simpa using hnew⟩

theorem wellFounded_less (fs : FileSystem) : WellFounded (Less fs) := by
  have hlex := (Prod.lex Nat.lt_wfRel Nat.lt_wfRel).wf
  refine Subrelation.wf (fun {w' w} h => ?_)
    (InvImage.wf (fun w : Walk => (unread fs w, w.rest.length)) hlex)
  rcases h with h | ⟨hreads, h⟩
  · exact Prod.Lex.left _ _ h
  · have heq : unread fs w' = unread fs w := by rw [unread, unread, hreads]
    simp only [InvImage, heq]
    exact Prod.Lex.right _ h

/-- The code gives up: a link was read whose target is no text. -/
def Failed (fs : FileSystem) (out : Outcome) : Prop :=
  out.result = none ∧ out.reads.Nodup ∧
    ∃ link ∈ out.reads, ∃ t, fs.lstat link = .link (some t) ∧ toStr t = none

def Turn (fs : FileSystem) (start : Nat → Path → Prop) (w : Walk) (next : Outcome ⊕ Walk) : Prop :=
  match next with
  | .inl out => Failed fs out
  | .inr w' => (∃ dir seg frames, Inv fs start w' dir seg frames) ∧ Less fs w' w

theorem Inv.turn_advance {dir' : Path} {looped : Bool}
    (h : Inv fs start w dir (name :: seg) frames)
    (hinv : Inv fs start { w with
      rest := stackOf seg frames, partCount := w.partCount - 1, resolved := pathText dir',
      looped := looped } dir' seg frames) :
    Turn fs start w (.inr { w with
      rest := stackOf seg frames, partCount := w.partCount - 1, resolved := pathText dir',
      looped := looped }) :=
  ⟨⟨dir', seg, frames, hinv⟩, .inr ⟨rfl, by simp [h.rest, stackOf_cons]⟩⟩

theorem Inv.turn_plain (h : Inv fs start w dir (name :: seg) frames) (hname : IsName name)
    (hstat : ∀ t, fs.lstat (pathText (dir ++ [name])) ≠ .link (some t)) :
    Turn fs start w (.inr { w with
      rest := stackOf seg frames, partCount := w.partCount - 1,
      resolved := pathText (dir ++ [name]) }) :=
  h.turn_advance (h.advance (h.proper.snoc hname (h.clean name List.mem_cons_self))
    (h.settled.plain hstat) (fun _ _ => (resolve_plain hname hstat).mp)
    (fun hf => ⟨hf, fun n _ hq => ⟨n, Nat.le_refl n, (resolve_plain hname hstat).mpr hq⟩⟩) .inl)

theorem Inv.turn_known {t text : Bytes} (h : Inv fs start w dir (name :: seg) frames)
    (hname : IsName name) (hstat : fs.lstat (pathText (dir ++ [name])) = .link (some t))
    (hseen : w.seen (pathText (dir ++ [name])) = some (some text)) :
    Turn fs start w (.inr { w with
      rest := stackOf seg frames, partCount := w.partCount - 1, resolved := text }) := by
  obtain ⟨p, rfl, hp, hset, htarget, hconv⟩ := h.known _ text
    (h.proper.snoc hname (h.clean name List.mem_cons_self)) hseen
  refine h.turn_advance (h.advance hp hset (fun n q hq => ?_) (fun hf => ⟨hf, fun n q hq => ?_⟩)
    .inl)
  · cases n with
    | zero => exact absurd hq (not_resolve_link hname hstat)
    | succ n =>
        obtain ⟨p', hp', hrest⟩ := (resolve_link hname hstat).mp hq
        rwa [← htarget n p' hp']
  · obtain ⟨m, hm⟩ := hconv hf
    refine ⟨max n m + 1, by omega, (resolve_link hname hstat).mpr ⟨p, hm.mono (by omega), ?_⟩⟩
    exact hq.mono (by omega)

theorem Inv.turn_loop {t : Bytes} (h : Inv fs start w dir (name :: seg) frames)
    (hname : IsName name) (hstat : fs.lstat (pathText (dir ++ [name])) = .link (some t))
    (hseen : w.seen (pathText (dir ++ [name])) = some none) :
    Turn fs start w (.inr { w with
      rest := stackOf seg frames, partCount := w.partCount - 1,
      resolved := pathText (dir ++ [name]), looped := true }) := by
  have hstuck := h.loop hname hstat hseen
  have hnone : ∀ n q, ¬ Resolve fs.lstat n dir (name :: seg) q := fun n q hq => by
    cases n with
    | zero => exact not_resolve_link hname hstat hq
    | succ n =>
        obtain ⟨p, hp, _⟩ := (resolve_link hname hstat).mp hq
        exact hstuck.2 n p hp
  exact h.turn_advance (h.advance (h.proper.snoc hname (h.clean name List.mem_cons_self))
    (.stuck (h.settled.linkFree hstat) hstuck) (fun n q hq => absurd hq (hnone n q))
    (fun hf => absurd hf (by decide)) (fun _ => .inr hnone))

theorem Inv.turn_enter {t : Bytes} (h : Inv fs start w dir (name :: seg) frames)
    (hname : IsName name) (hstat : fs.lstat (pathText (dir ++ [name])) = .link (some t))
    (hnew : w.seen (pathText (dir ++ [name])) = none) :
    Turn fs start w (.inr { w with
      reads := pathText (dir ++ [name]) :: w.reads
      resolved := pathText (rootOf dir t)
      seen := Function.update w.seen (pathText (dir ++ [name])) (some none)
      rest := stackOf (t.splitOn slash) (⟨dir ++ [name], seg⟩ :: frames)
      partCount := w.partCount - 1 + (t.splitOn slash).length }) :=
  ⟨⟨_, _, _, h.enter hname hstat hnew⟩, .inl (unread_lt
    (fs.complete dir name (h.settled.linkFree hstat) hname (h.clean name List.mem_cons_self) _
      hstat)
    (fun hmem => h.reads_seen _ hmem hnew) rfl)⟩

theorem toStr_eq {t target : Bytes} (h : toStr t = some target) : target = t := by
  unfold toStr at h
  split at h <;> simp_all

theorem Inv.turn_name (h : Inv fs start w dir (name :: seg) frames) :
    Turn fs start w (step fs.lstat w) := by
  have hproper : ∀ hname : IsName name, Proper (dir ++ [name]) :=
    fun hname => h.proper.snoc hname (h.clean name List.mem_cons_self)
  by_cases hskip : name = [] ∨ name = [dot]
  · have hturn := h.turn_advance (h.advance h.proper h.settled
      (fun _ _ => (resolve_skip hskip).mp)
      (fun hf => ⟨hf, fun n _ hq => ⟨n, Nat.le_refl n, (resolve_skip hskip).mpr hq⟩⟩) .inl)
    simpa only [step, h.rest, stackOf_cons, if_pos hskip, h.resolved] using hturn
  by_cases hup : name = [dot, dot]
  · subst hup
    have hturn := h.turn_advance (h.advance h.proper.dropLast h.settled.parent
      (fun _ _ => resolve_up.mp)
      (fun hf => ⟨hf, fun n _ hq => ⟨n, Nat.le_refl n, resolve_up.mpr hq⟩⟩) .inl)
    simpa only [step, h.rest, stackOf_cons, if_neg hskip, if_true, h.resolved,
      parentText_pathText h.proper] using hturn
  have hname : IsName name := ⟨fun hn => hskip (.inl hn), fun hn => hskip (.inr hn), hup⟩
  have hnext : childText w.resolved name = pathText (dir ++ [name]) := by
    rw [h.resolved, childText_pathText h.proper]
  simp only [step, h.rest, stackOf_cons, if_neg hskip, if_neg hup, hnext]
  cases hstat : fs.lstat (pathText (dir ++ [name])) with
  | missing => exact h.turn_plain hname (by simp [hstat])
  | other => exact h.turn_plain hname (by simp [hstat])
  | link target =>
      cases hseen : w.seen (pathText (dir ++ [name])) with
      | some value =>
          obtain ⟨t, ht⟩ := h.seen_link _ (by rw [hseen]; exact Option.some_ne_none value)
          cases value with
          | some text => exact h.turn_known hname ht hseen
          | none => exact h.turn_loop hname ht hseen
      | none =>
          cases target with
          | none => exact h.turn_plain hname (by simp [hstat])
          | some t =>
              dsimp only
              cases hstr : toStr t with
              | none =>
                  exact ⟨rfl, List.nodup_cons.mpr ⟨fun hmem => h.reads_seen _ hmem hseen,
                    h.reads_nodup⟩, _, List.mem_cons_self, t, hstat, hstr⟩
              | some target =>
                  obtain rfl := toStr_eq hstr
                  have hroot : (if target.head? = some slash then [slash] else w.resolved) =
                      pathText (rootOf dir target) := by
                    rw [h.resolved, rootOf]
                    split <;> rfl
                  have hturn := h.turn_enter hname hstat hseen
                  simpa only [stackOf, hroot] using hturn

theorem Inv.turn (h : Inv fs start w dir seg frames) (hcount : w.partCount ≠ 0) :
    Turn fs start w (step fs.lstat w) := by
  cases seg with
  | cons name seg => exact h.turn_name
  | nil =>
      cases frames with
      | nil => exact absurd h.count hcount
      | cons f frames =>
          simp only [step, h.rest, stackOf, List.map_nil, List.nil_append]
          have hshort : (stackOf f.rest frames).length < w.rest.length := by
            rw [h.rest]
            exact Nat.lt_add_of_pos_right (Nat.succ_pos 1)
          exact ⟨⟨dir, f.rest, frames, h.leave⟩, .inr ⟨rfl, hshort⟩⟩

/-- The path that is returned when the origin is `start`. -/
def Reached (start : Nat → Path → Prop) (out : Outcome) (p : Path) : Prop :=
  out.result = some (pathText p) ∧ Proper p ∧ out.reads.Nodup ∧
    (out.looped = false → ∃ n, start n p) ∧ ∀ n q, start n q → out.looped = false ∧ q = p

theorem Inv.reached (h : Inv fs start w dir seg frames) (hcount : w.partCount = 0) :
    Reached start ⟨some w.resolved, w.reads, w.looped⟩ dir := by
  have hseg : seg = [] := by
    cases seg with
    | nil => rfl
    | cons name seg =>
        have hc := h.count
        rw [countOf_cons, hcount] at hc
        exact absurd hc (Nat.succ_ne_zero _).symm
  subst hseg
  have hdone : countOf [] frames = 0 := h.count ▸ hcount
  refine ⟨congrArg some h.resolved, h.proper, h.reads_nodup,
    fun hf => h.builds hf 0 dir ((leads_done hdone).mpr rfl), fun n q hq => ⟨?_, ?_⟩⟩
  · exact Bool.eq_false_iff.mpr fun ht => h.stuck ht n q hq
  · obtain ⟨d, _, hlead⟩ := h.tracks n q hq
    exact (leads_done hdone).mp hlead

theorem run_succ {fuel : Nat} {out : Outcome} (h : run lstat fuel w = some out) :
    run lstat (fuel + 1) w = some out := by
  induction fuel generalizing w with
  | zero =>
      unfold run at h ⊢
      split at h
      · rwa [if_pos ‹_›]
      · exact absurd h (by simp)
  | succ fuel ih =>
      unfold run at h ⊢
      split at h
      · rwa [if_pos ‹_›]
      · rw [if_neg ‹_›]
        dsimp only at h ⊢
        cases hstep : step lstat w with
        | inl out' => rwa [hstep] at h
        | inr w' =>
            rw [hstep] at h
            exact ih h

theorem run_mono {fuel fuel' : Nat} {out : Outcome} (h : run lstat fuel w = some out)
    (hle : fuel ≤ fuel') : run lstat fuel' w = some out := by
  induction hle with
  | refl => exact h
  | step _ ih => exact run_succ ih

theorem Inv.run (h : Inv fs start w dir seg frames) : ∃ fuel out,
    run fs.lstat fuel w = some out ∧ (Failed fs out ∨ ∃ p, Reached start out p) := by
  induction w using (wellFounded_less fs).induction generalizing dir seg frames with
  | _ w ih =>
      by_cases hcount : w.partCount = 0
      · refine ⟨0, ⟨some w.resolved, w.reads, w.looped⟩, ?_, .inr ⟨dir, h.reached hcount⟩⟩
        unfold PyPath.run
        exact if_pos hcount
      have hturn := h.turn hcount
      cases hstep : step fs.lstat w with
      | inl out =>
          rw [hstep] at hturn
          refine ⟨1, out, ?_, .inl hturn⟩
          simp [PyPath.run, hcount, hstep]
      | inr w' =>
          rw [hstep] at hturn
          obtain ⟨⟨dir', seg', frames', hinv⟩, hless⟩ := hturn
          obtain ⟨fuel, out, hrun, hout⟩ := ih w' hless hinv
          refine ⟨fuel + 1, out, ?_, hout⟩
          rw [PyPath.run, if_neg hcount]
          simpa only [hstep] using hrun

/-! ## The result -/

/-- An absolute working directory with no link on it. -/
structure WorkDir (fs : FileSystem) where
  path : Path
  proper : Proper path
  linkFree : LinkFree fs.lstat path

theorem inv_initial {root : Path} {path : Bytes} (hnul : nul ∉ path) (hroot : Proper root)
    (hfree : LinkFree fs.lstat root) :
    Inv fs (Resolve fs.lstat · root (path.splitOn slash)) (initial path (pathText root)) root
      (path.splitOn slash) [] where
  rest := rfl
  count := rfl
  resolved := rfl
  proper := hroot
  settled := .inl hfree
  clean := clean_of_mem_splitOn hnul
  frames_clean := fun f hf => absurd hf List.not_mem_nil
  frames_link := fun f hf => absurd hf List.not_mem_nil
  pending := fun _ _ h => absurd h (by simp [initial])
  known := fun _ _ _ h => absurd h (by simp [initial])
  seen_link := fun _ h => absurd rfl h
  reads_nodup := List.nodup_nil
  reads_seen := fun _ h => absurd h List.not_mem_nil
  tracks := fun n _ h => ⟨n, rfl, h⟩
  builds := fun _ d _ h => ⟨d, h⟩
  stuck := fun h => absurd h (by simp [initial])
  tracks_link := fun above f below h => absurd h (by simp)
  builds_link := fun _ above f below h => absurd h (by simp)

theorem step_empty {rest : List (Option Bytes)} (hrest : w.rest = some [] :: rest) :
    step lstat w = .inr { w with rest := rest, partCount := w.partCount - 1 } := by
  simp [step, hrest]

theorem step_plain {rest : List (Option Bytes)} (hrest : w.rest = some name :: rest)
    (hname : IsName name) (hresolved : w.resolved = pathText dir) (hproper : Proper dir)
    (hseen : ∀ text, w.seen text = none)
    (hstat : ∀ t, lstat (pathText (dir ++ [name])) ≠ .link (some t)) :
    step lstat w = .inr { w with
      rest := rest, partCount := w.partCount - 1, resolved := pathText (dir ++ [name]) } := by
  have hskip : ¬ (name = [] ∨ name = [dot]) := fun h => h.elim hname.1 hname.2.1
  have hnext : childText w.resolved name = pathText (dir ++ [name]) := by
    rw [hresolved, childText_pathText hproper]
  simp only [step, hrest, if_neg hskip, if_neg hname.2.2, hnext]
  cases hs : lstat (pathText (dir ++ [name])) with
  | missing => rfl
  | other => rfl
  | link target =>
      cases target with
      | none => simp only [hseen]
      | some t => exact absurd hs (hstat t)

theorem run_plain (hresolved : w.resolved = pathText dir) (hproper : Proper dir)
    (hrest : w.rest = seg.map some) (hcount : w.partCount = seg.length)
    (hseen : ∀ text, w.seen text = none) (hseg : ∀ name ∈ seg, name = [] ∨ IsName name ∧ Clean name)
    (hplain : Plain lstat (dir ++ seg.filter (· ≠ []))) :
    run lstat seg.length w =
      some ⟨some (pathText (dir ++ seg.filter (· ≠ []))), w.reads, w.looped⟩ := by
  induction seg generalizing w dir with
  | nil => simp [PyPath.run, hcount, hresolved]
  | cons name seg ih =>
      have hne : w.partCount ≠ 0 := by simp [hcount]
      have hrest' : w.rest = some name :: seg.map some := hrest
      have hcount' : w.partCount - 1 = seg.length := by simp [hcount]
      rw [List.length_cons, PyPath.run, if_neg hne]
      rcases hseg name List.mem_cons_self with rfl | ⟨hname, hclean⟩
      · have hfilter : ([] :: seg).filter (· ≠ []) = seg.filter (· ≠ []) := by simp
        rw [hfilter] at hplain ⊢
        rw [step_empty hrest']
        exact ih hresolved hproper rfl hcount' hseen
          (fun n hn => hseg n (List.mem_cons_of_mem _ hn)) hplain
      · have hfilter : dir ++ (name :: seg).filter (· ≠ []) =
            (dir ++ [name]) ++ seg.filter (· ≠ []) := by simp [hname.1]
        rw [hfilter] at hplain ⊢
        rw [step_plain hrest' hname hresolved hproper hseen
          (hplain _ (by simp) (List.prefix_append _ _))]
        exact ih rfl (hproper.snoc hname hclean) rfl hcount' hseen
          (fun n hn => hseg n (List.mem_cons_of_mem _ hn)) hplain

theorem head?_pathText (p : Path) : (pathText p).head? = some slash := by
  cases p <;> simp [pathText]

theorem nul_not_mem_pathText {p : Path} (hp : Proper p) : nul ∉ pathText p := by
  unfold pathText
  split
  · decide
  · intro hmem
    obtain ⟨name, hname, hb⟩ := List.mem_flatMap.mp hmem
    rcases List.mem_cons.mp hb with hb | hb
    · exact absurd hb (by decide)
    · exact (hp name hname).2.2 hb

theorem realpath_plain {p : Path} (hp : Proper p) (hplain : Plain lstat p) (cwd : Option Bytes) :
    ∃ N, ∀ fuel, N ≤ fuel →
      realpath lstat cwd (pathText p) fuel = some ⟨some (pathText p), [], false⟩ := by
  have hseg : ∀ name ∈ (pathText p).splitOn slash, name = [] ∨ IsName name ∧ Clean name := by
    intro name hname
    by_cases hnil : name = []
    · exact .inl hnil
    · refine .inr (hp name ?_)
      rw [← splitOn_pathText hp]
      exact List.mem_filter.mpr ⟨hname, by simpa using hnil⟩
  have hrun : run lstat ((pathText p).splitOn slash).length (initial (pathText p) [slash]) =
      some ⟨some (pathText ([] ++ ((pathText p).splitOn slash).filter (· ≠ []))), [], false⟩ :=
    run_plain rfl proper_nil rfl rfl (fun _ => rfl) hseg (by rwa [splitOn_pathText hp])
  rw [splitOn_pathText hp] at hrun
  refine ⟨((pathText p).splitOn slash).length, fun fuel hfuel => ?_⟩
  rw [realpath, if_neg (nul_not_mem_pathText hp), head?_pathText, if_pos rfl]
  exact run_mono hrun hfuel

/-- What was to be read is no text: a relative path's working directory, or the target of a link
on the way. -/
def NoText (fs : FileSystem) (cwd : WorkDir fs) (path : Bytes) (out : Outcome) : Prop :=
  path.head? ≠ some slash ∧ toStr (pathText cwd.path) = none ∨
    ∃ link ∈ out.reads, ∃ t, fs.lstat link = .link (some t) ∧ toStr t = none

/-- The result is a path of names. With no loop met it is what the path resolves to and its own
result, and every path that resolves meets none. -/
def Canonical (fs : FileSystem) (cwd : WorkDir fs) (path : Bytes) (out : Outcome) : Prop :=
  ∃ p, out.result = some (pathText p) ∧ Proper p ∧
    (out.looped = false →
      Resolves fs.lstat (rootOf cwd.path path) (path.splitOn slash) p ∧
      ∃ N, ∀ fuel, N ≤ fuel → realpath fs.lstat (some (pathText cwd.path)) (pathText p) fuel =
        some ⟨some (pathText p), [], false⟩) ∧
    ∀ q, Resolves fs.lstat (rootOf cwd.path path) (path.splitOn slash) q →
      out.looped = false ∧ q = p

theorem Reached.canonical {cwd : WorkDir fs} {path : Bytes} {out : Outcome} {p : Path}
    (h : Reached (Resolve fs.lstat · (rootOf cwd.path path) (path.splitOn slash)) out p) :
    Canonical fs cwd path out := by
  obtain ⟨hresult, hproper, -, hbuilds, htracks⟩ := h
  refine ⟨p, hresult, hproper, fun hf => ?_, fun q ⟨n, hq⟩ => htracks n q hq⟩
  obtain ⟨n, hq⟩ := hbuilds hf
  have hroot : Plain fs.lstat (rootOf cwd.path path) := by
    unfold rootOf
    split
    · exact linkFree_nil.plain
    · exact cwd.linkFree.plain
  exact ⟨⟨n, hq⟩, realpath_plain hproper (hq.keeps_plain hroot) _⟩

theorem realpath_resolves (fs : FileSystem) (cwd : WorkDir fs) (path : Bytes) (hnul : nul ∉ path) :
    ∃ N out, (∀ fuel, N ≤ fuel →
        realpath fs.lstat (some (pathText cwd.path)) path fuel = some out) ∧
      out.reads.Nodup ∧
      (out.result = none ∧ NoText fs cwd path out ∨ Canonical fs cwd path out) := by
  have hroot : Proper (rootOf cwd.path path) := cwd.proper.rootOf
  have hfree : LinkFree fs.lstat (rootOf cwd.path path) := by
    unfold rootOf
    split
    · exact linkFree_nil
    · exact cwd.linkFree
  by_cases hcwd : path.head? ≠ some slash ∧ toStr (pathText cwd.path) = none
  · refine ⟨0, ⟨none, [], false⟩, fun fuel _ => ?_, List.nodup_nil, .inl ⟨rfl, .inl hcwd⟩⟩
    rw [realpath, if_neg hnul, if_neg hcwd.1]
    simp [hcwd.2]
  obtain ⟨fuel, out, hrun, hout⟩ := (inv_initial hnul hroot hfree).run
  have hresolved : (if path.head? = some slash then some [slash]
      else (some (pathText cwd.path)).bind toStr) = some (pathText (rootOf cwd.path path)) := by
    unfold rootOf
    split
    · rfl
    · rename_i hrel
      cases hstr : toStr (pathText cwd.path) with
      | none => exact absurd ⟨hrel, hstr⟩ hcwd
      | some text => simp [hstr, toStr_eq hstr]
  refine ⟨fuel, out, fun fuel' hle => ?_, ?_⟩
  · rw [realpath, if_neg hnul, hresolved]
    exact run_mono hrun hle
  · rcases hout with ⟨hnone, hnodup, hread⟩ | ⟨p, hreached⟩
    · exact ⟨hnodup, .inl ⟨hnone, .inr hread⟩⟩
    · exact ⟨hreached.2.2.1, .inr hreached.canonical⟩

/-- `/a`. -/
def aText : Bytes := [slash, 97]

/-- A file system with one link, `/a`. -/
def oneLink (target : Bytes) (htarget : nul ∉ target) : FileSystem where
  lstat := fun text => if text = aText then .link (some target) else .missing
  links := [aText]
  complete := fun dir name _ _ _ t h => by
    by_cases heq : pathText (dir ++ [name]) = aText
    · simp [heq]
    · simp [heq] at h
  below := fun link rest _ hstuck hne t h => by
    obtain ⟨⟨t', ht'⟩, -⟩ := hstuck
    have hlink : pathText link = aText := by
      by_contra hne
      simp [hne] at ht'
    have hbelow : pathText (link ++ rest) = aText := by
      by_contra hne
      simp [hne] at h
    have hnil : link ≠ [] := fun hnil => by
      rw [hnil] at hlink
      exact absurd hlink (by decide)
    rw [pathText_of_ne (by simp [hnil]), List.flatMap_append, ← pathText_of_ne hnil, hlink]
      at hbelow
    obtain ⟨name, others, rfl⟩ := List.exists_cons_of_ne_nil hne
    simp at hbelow
  target_nul := fun text t h => by
    by_cases heq : text = aText
    · rw [if_pos heq] at h
      injection h with h
      injection h with h
      exact h ▸ htarget
    · simp [heq] at h

def rootDir (fs : FileSystem) : WorkDir fs := ⟨[], proper_nil, linkFree_nil⟩

theorem realpath_resolves_link : ∃ N out, (∀ fuel, N ≤ fuel →
      realpath (oneLink [98] (by decide)).lstat (some [slash]) aText fuel = some out) ∧
    out.reads.Nodup ∧
    (out.result = none ∧ NoText (oneLink [98] (by decide)) (rootDir _) aText out ∨
      Canonical (oneLink [98] (by decide)) (rootDir _) aText out) :=
  realpath_resolves (oneLink [98] (by decide)) (rootDir _) aText (by decide)

/-- The target of the link, one byte `0xFF`, is not UTF-8, and nothing is returned. -/
theorem not_realpath_resolves :
    Resolves (oneLink [255] (by decide)).lstat [] (aText.splitOn slash) [[255]] ∧
    ∃ N, ∀ fuel, N ≤ fuel →
      realpath (oneLink [255] (by decide)).lstat (some [slash]) aText fuel =
        some ⟨none, [aText], false⟩ := by
  refine ⟨⟨1, ?_⟩, 2, fun fuel hle => ?_⟩
  · have htarget : Resolve (oneLink [255] (by decide)).lstat 0 (rootOf [] [255])
        ([255].splitOn slash) [[255]] := by
      have hmissing : (oneLink [255] (by decide)).lstat (pathText [[255]]) = .missing := rfl
      exact .plain (by decide) (fun t ht => Stat.noConfusion (hmissing.symm.trans ht)) .done
    exact .skip (.inl rfl) (.link (by decide) rfl htarget .done)
  · have hrun : run (oneLink [255] (by decide)).lstat 2 (initial aText [slash]) =
        some ⟨none, [aText], false⟩ := rfl
    exact run_mono hrun hle

end PyPath

end Dagayn
