import Mathlib

/-!
# Scanners

A scanner reads a value off the front of a text and leaves the rest. Scanners of a
nested grammar are written with fuel, and what a scanner does depends on what follows
the value (a number ends where the digits end), so the property carried from scanner
to scanner is `Follows`: what `p` read, every `q m` with fuel for its text reads from
that text again, whatever follows it, if that is empty or starts with a separator.

`delimited` is a bracketed list with commas and blanks, `pair` a key and a value
around a colon; both keep `Follows`. In the other direction `delimited_joined` reads
a list written with `", "` between its elements.
-/

namespace Dagayn

/-- Reads a value off the front of a text; `none` where there is none. -/
abbrev Scanner (α : Type) := List Char → Option (α × List Char)

def isBlank (c : Char) : Bool := c = ' ' || c = '\n' || c = '\t' || c = '\r'

def skipBlanks (cs : List Char) : List Char := cs.dropWhile isBlank

theorem skipBlanks_cons {c : Char} (hc : isBlank c = false) (cs : List Char) :
    skipBlanks (c :: cs) = c :: cs := List.dropWhile_cons_of_neg (by simp [hc])

theorem skipBlanks_split {cs t rest : List Char} (h : skipBlanks cs = t ++ rest)
    (ht : t ≠ []) : ∃ w, cs = w ++ (t ++ rest) ∧ (∀ c ∈ w, isBlank c = true) ∧
      ∀ rest', skipBlanks (w ++ (t ++ rest')) = t ++ rest' := by
  refine ⟨cs.takeWhile isBlank, ?_, fun c hc => List.mem_takeWhile_imp hc, fun rest' => ?_⟩
  · rw [← h]
    exact List.takeWhile_append_dropWhile.symm
  · cases t with
    | nil => exact absurd rfl ht
    | cons c t =>
        have hc : isBlank c = false := by
          have hne : skipBlanks cs ≠ [] := by rw [h]; exact List.cons_ne_nil _ _
          have hhead := List.head_dropWhile_not isBlank (l := cs) hne
          have hsome : (skipBlanks cs).head hne = c := by
            have : (skipBlanks cs).head? = some c := by rw [h]; rfl
            exact List.head_eq_iff_head?_eq_some hne |>.mpr this
          rw [← hsome]
          exact hhead
        unfold skipBlanks
        rw [List.dropWhile_append_of_pos fun c hc => List.mem_takeWhile_imp hc]
        exact skipBlanks_cons hc _

theorem skipBlanks_split_cons {cs rest : List Char} {c : Char} (h : skipBlanks cs = c :: rest) :
    ∃ w, cs = w ++ ([c] ++ rest) ∧ (∀ c ∈ w, isBlank c = true) ∧
      ∀ rest', skipBlanks (w ++ ([c] ++ rest')) = [c] ++ rest' :=
  skipBlanks_split (t := [c]) h (List.cons_ne_nil c [])

namespace Scanner

variable {α β κ : Type}

protected def map (f : α → β) (p : Scanner α) : Scanner β := fun cs =>
  (p cs).map fun r => (f r.1, r.2)

def withText (p : Scanner α) : Scanner (List Char × α) := fun cs =>
  (p cs).map fun r => ((cs.take (cs.length - r.2.length), r.1), r.2)

theorem map_snd_withText (p : Scanner α) : (withText p).map Prod.snd = p := by
  funext cs
  unfold Scanner.map withText
  rw [Option.map_map]
  exact Option.map_id_apply

theorem withText_append {p : Scanner α} {t rest : List Char} {a : α}
    (h : p (t ++ rest) = some (a, rest)) : withText p (t ++ rest) = some ((t, a), rest) := by
  unfold withText
  rw [h]
  simp

/-- One or more elements with commas between them, up to a closing character. -/
def elements (p : Scanner α) (close : Char) : Nat → Scanner (List α)
  | 0, _ => none
  | n + 1, cs =>
      (p cs).bind fun r =>
        match skipBlanks r.2 with
        | [] => none
        | c :: rest =>
            if c = close then some ([r.1], rest)
            else if c = ',' then
              (elements p close n (skipBlanks rest)).map fun s => (r.1 :: s.1, s.2)
            else none

/-- The elements of a list behind its opening character. -/
def delimited (p : Scanner α) (close : Char) (n : Nat) : Scanner (List α) := fun cs =>
  match skipBlanks cs with
  | [] => none
  | c :: rest => if c = close then some ([], rest) else elements p close n (c :: rest)

/-- A key and a value with a colon between them. -/
def pair (k : Scanner κ) (p : Scanner α) : Scanner (κ × α) := fun cs =>
  (k cs).bind fun r =>
    match skipBlanks r.2 with
    | ':' :: rest => (p (skipBlanks rest)).map fun s => ((r.1, s.1), s.2)
    | _ => none

/-! ## What a scanner reads does not depend on what follows -/

def Ends (sep : Char → Bool) (cs : List Char) : Prop := ∀ c ∈ cs.head?, sep c = true

/-- `p` reads `t` as `a`. -/
def Takes (sep : Char → Bool) (p : Scanner α) (t : List Char) (a : α) : Prop :=
  ∀ rest, Ends sep rest → p (t ++ rest) = some (a, rest)

/-- What `p` reads, `q` reads from the same text with fuel for its length. -/
def Follows (sep : Char → Bool) (p : Scanner α) (q : Nat → Scanner α) : Prop :=
  ∀ cs a rest, p cs = some (a, rest) →
    ∃ t, t ≠ [] ∧ cs = t ++ rest ∧ ∀ m, t.length ≤ m → Takes sep (q m) t a

variable {sep : Char → Bool}

theorem ends_cons {c : Char} (hc : sep c = true) (cs : List Char) : Ends sep (c :: cs) := by
  intro d hd
  rw [Option.mem_some_iff.mp hd] at hc
  exact hc

theorem ends_blanks (hblank : ∀ c, isBlank c = true → sep c = true) {w cs : List Char}
    (hw : ∀ c ∈ w, isBlank c = true) (hcs : Ends sep cs) : Ends sep (w ++ cs) := by
  cases w with
  | nil => exact hcs
  | cons c w => exact ends_cons (hblank c (hw c List.mem_cons_self)) _

theorem withText_takes {p : Scanner α} {t : List Char} {a : α} (h : Takes sep p t a) :
    Takes sep (withText p) t (t, a) :=
  fun rest hrest => withText_append (h rest hrest)

section Lists

variable {p : Scanner α} {q : Nat → Scanner α} {close : Char}
variable (hblank : ∀ c, isBlank c = true → sep c = true)

include hblank in
theorem elements_follows (hp : Follows sep p q) (hcomma : sep ',' = true)
    (hclose : sep close = true) : ∀ (n : Nat) (cs : List Char) (as : List α) (rest : List Char),
    elements p close n cs = some (as, rest) →
    ∃ t, t ≠ [] ∧ cs = t ++ rest ∧ ∀ m k, t.length ≤ m → t.length ≤ k →
      ∀ rest', elements (q m) close k (t ++ rest') = some (as, rest') := by
  intro n
  induction n with
  | zero =>
      intro cs as rest h
      exact absurd h (by simp [elements])
  | succ n ih =>
      intro cs as rest h
      rw [elements, Option.bind_eq_some_iff] at h
      obtain ⟨⟨a, r⟩, ha, h⟩ := h
      obtain ⟨t, ht, rfl, htake⟩ := hp cs a r ha
      dsimp only at h
      split at h
      · exact absurd h (by simp)
      · rename_i c r' hr
        obtain ⟨w, rfl, hw, hskip⟩ := skipBlanks_split_cons hr
        split at h
        · -- the closing character
          rename_i hc
          cases h
          refine ⟨t ++ (w ++ [c]), by simp, by simp, fun m k hm hk rest' => ?_⟩
          cases k with
          | zero => simp at hk
          | succ k =>
              have hends : Ends sep (w ++ ([c] ++ rest')) :=
                ends_blanks hblank hw (ends_cons (hc ▸ hclose) rest')
              have hm' : t.length ≤ m := by
                simp only [List.length_append] at hm
                omega
              have hread := htake m hm' _ hends
              rw [List.append_assoc, List.append_assoc, elements, hread, Option.bind_some]
              dsimp only
              rw [hskip rest']
              simp [hc]
        · rename_i hne
          split at h
          · -- a comma and further elements
            rename_i hc
            obtain ⟨⟨as', r''⟩, has, h⟩ := Option.map_eq_some_iff.mp h
            cases h
            obtain ⟨u, hu, hcs, hmore⟩ := ih _ as' r'' has
            obtain ⟨w', rfl, hw', hskip'⟩ := skipBlanks_split hcs hu
            refine ⟨t ++ (w ++ (c :: (w' ++ u))), by simp, by simp, fun m k hm hk rest' => ?_⟩
            simp only [List.length_append, List.length_cons] at hm hk
            cases k with
            | zero => omega
            | succ k =>
                have hends : Ends sep (w ++ ([c] ++ (w' ++ (u ++ rest')))) :=
                  ends_blanks hblank hw (ends_cons (hc ▸ hcomma) _)
                have hread := htake m (by omega) _ hends
                have htail := hmore m k (by omega) (by omega) rest'
                simp only [List.append_assoc, List.cons_append]
                rw [elements]
                simp only [List.cons_append, List.nil_append] at hread hskip
                rw [hread, Option.bind_some]
                dsimp only
                rw [hskip]
                simp only [if_neg hne, if_pos hc]
                rw [hskip', htail]
                rfl
          · exact absurd h (by simp)

include hblank in
theorem delimited_follows (hp : Follows sep p q) (hcomma : sep ',' = true)
    (hclose : sep close = true) {n : Nat} {cs : List Char} {as : List α} {rest : List Char}
    (h : delimited p close n cs = some (as, rest)) :
    ∃ t, cs = t ++ rest ∧ ∀ m k, t.length ≤ m → t.length ≤ k →
      ∀ rest', delimited (q m) close k (t ++ rest') = some (as, rest') := by
  unfold delimited at h
  split at h
  · exact absurd h (by simp)
  · rename_i c r hr
    split at h
    · rename_i hc
      cases h
      obtain ⟨w, rfl, hw, hskip⟩ := skipBlanks_split_cons hr
      refine ⟨w ++ [c], by simp, fun m k _ _ rest' => ?_⟩
      unfold delimited
      rw [List.append_assoc, hskip rest']
      simp [hc]
    · rename_i hne
      obtain ⟨u, hu, hcs, hmore⟩ := elements_follows hblank hp hcomma hclose n _ as rest h
      obtain ⟨w, rfl, hw, hskip⟩ := skipBlanks_split (hr.trans hcs) hu
      refine ⟨w ++ u, by simp, fun m k hm hk rest' => ?_⟩
      simp only [List.length_append] at hm hk
      cases u with
      | nil => exact absurd rfl hu
      | cons d u =>
          obtain ⟨rfl, -⟩ := List.cons.inj hcs
          have hread := hmore m k (by omega) (by omega) rest'
          unfold delimited
          rw [List.append_assoc, hskip rest']
          simp only [List.cons_append, if_neg hne]
          exact hread

include hblank in
theorem pair_follows {k : Scanner κ} (hk : Follows sep k fun _ => k) (hp : Follows sep p q)
    (hcolon : sep ':' = true) : Follows sep (pair k p) fun m => pair k (q m) := by
  intro cs e rest h
  unfold pair at h
  rw [Option.bind_eq_some_iff] at h
  obtain ⟨⟨key, r⟩, hkey, h⟩ := h
  obtain ⟨t, ht, rfl, htake⟩ := hk cs key r hkey
  dsimp only at h
  split at h
  · rename_i r' hr
    obtain ⟨⟨a, r''⟩, ha, h⟩ := Option.map_eq_some_iff.mp h
    cases h
    obtain ⟨u, hu, hcs, hval⟩ := hp _ a r'' ha
    obtain ⟨w, rfl, hw, hskip⟩ := skipBlanks_split_cons hr
    obtain ⟨w', rfl, -, hskip'⟩ := skipBlanks_split hcs hu
    refine ⟨t ++ (w ++ (':' :: (w' ++ u))), by simp, by simp, fun m hm rest' hrest' => ?_⟩
    simp only [List.length_append, List.length_cons] at hm
    have hends : Ends sep (w ++ ([':'] ++ (w' ++ (u ++ rest')))) :=
      ends_blanks hblank hw (ends_cons hcolon _)
    have hread := htake t.length (Nat.le_refl _) _ hends
    have hvalue := hval m (by omega) rest' hrest'
    simp only [List.append_assoc, List.cons_append]
    simp only [List.cons_append, List.nil_append] at hread hskip
    unfold pair
    rw [hread, Option.bind_some]
    dsimp only
    rw [hskip]
    simp only
    rw [hskip', hvalue]
    rfl
  · exact absurd h (by simp)

end Lists

/-! ## Changing what is read -/

theorem elements_map (f : α → β) (p : Scanner α) (close : Char) : ∀ n,
    elements (p.map f) close n = (elements p close n).map (List.map f) := by
  intro n
  induction n with
  | zero => rfl
  | succ n ih =>
      funext cs
      show ((p cs).map _).bind _ = Option.map _ ((p cs).bind _)
      cases p cs with
      | none => rfl
      | some r =>
          dsimp only [Option.map_some, Option.bind_some]
          cases skipBlanks r.2 with
          | nil => rfl
          | cons c rest =>
              dsimp only
              split
              · rfl
              · split
                · rw [ih]
                  unfold Scanner.map
                  rw [Option.map_map, Option.map_map]
                  rfl
                · rfl

theorem delimited_map (f : α → β) (p : Scanner α) (close : Char) (n : Nat) :
    delimited (p.map f) close n = (delimited p close n).map (List.map f) := by
  funext cs
  show delimited (p.map f) close n cs = (delimited p close n cs).map _
  unfold delimited
  rw [elements_map]
  cases skipBlanks cs with
  | nil => rfl
  | cons c rest =>
      dsimp only
      split <;> rfl

theorem pair_map (f : α → β) (k : Scanner κ) (p : Scanner α) :
    pair k (p.map f) = (pair k p).map (Prod.map id f) := by
  funext cs
  show pair k (p.map f) cs = (pair k p cs).map _
  unfold pair
  cases k cs with
  | none => rfl
  | some r =>
      dsimp only [Option.bind_some]
      split
      · unfold Scanner.map
        rw [Option.map_map, Option.map_map]
        rfl
      · rfl

/-! ## What every element satisfies -/

variable {p : Scanner α} {close : Char} {P : α → Prop}

theorem forall_elements (hp : ∀ cs a rest, p cs = some (a, rest) → P a) :
    ∀ n cs as rest, elements p close n cs = some (as, rest) → ∀ a ∈ as, P a := by
  intro n
  induction n with
  | zero =>
      intro cs as rest h
      exact absurd h (by simp [elements])
  | succ n ih =>
      intro cs as rest h
      rw [elements, Option.bind_eq_some_iff] at h
      obtain ⟨⟨a, r⟩, ha, h⟩ := h
      have hPa : P a := hp cs a r ha
      dsimp only at h
      split at h
      · exact absurd h (by simp)
      · split at h
        · cases h
          simpa using hPa
        · split at h
          · obtain ⟨⟨as', r'⟩, has, h⟩ := Option.map_eq_some_iff.mp h
            cases h
            exact List.forall_mem_cons.mpr ⟨hPa, ih _ as' r' has⟩
          · exact absurd h (by simp)

theorem forall_delimited (hp : ∀ cs a rest, p cs = some (a, rest) → P a) {n : Nat}
    {cs : List Char} {as : List α} {rest : List Char}
    (h : delimited p close n cs = some (as, rest)) : ∀ a ∈ as, P a := by
  unfold delimited at h
  split at h
  · exact absurd h (by simp)
  · split at h
    · cases h
      exact fun a ha => absurd ha List.not_mem_nil
    · exact forall_elements hp n _ as rest h

/-! ## Written lists -/

/-- Texts with `", "` between them. -/
def joined : List (List Char) → List Char
  | [] => []
  | [t] => t
  | t :: ts => t ++ ',' :: ' ' :: joined ts

theorem joined_cons_append (t : List Char) (ts : List (List Char)) (cs : List Char) :
    joined (t :: ts) ++ cs
      = t ++ (match ts with | [] => cs | _ => ',' :: ' ' :: (joined ts ++ cs)) := by
  cases ts with
  | nil => rfl
  | cons u ts => simp [joined]

/-- The element does not start with a blank or the closing character. -/
def Starts (close : Char) (t : List Char) : Prop :=
  ∃ c u, t = c :: u ∧ isBlank c = false ∧ c ≠ close

section Written

variable {ι : Type} (text : ι → List Char) (val : ι → α)

theorem elements_joined (hcomma : sep ',' = true) (hclose : sep close = true)
    (hne : close ≠ ',') (hcb : isBlank close = false) :
    ∀ (is : List ι) (n : Nat) (rest : List Char), is ≠ [] → is.length ≤ n →
      (∀ i ∈ is, Takes sep p (text i) (val i) ∧ Starts close (text i)) →
      elements p close n (joined (is.map text) ++ close :: rest) = some (is.map val, rest)
  | [], _, _, h, _, _ => absurd rfl h
  | i :: is, 0, _, _, h, _ => absurd h (by simp)
  | [i], n + 1, rest, _, _, hall => by
      have hread := (hall i List.mem_cons_self).1 (close :: rest) (ends_cons hclose rest)
      show elements p close (n + 1) (text i ++ close :: rest) = _
      rw [elements, hread, Option.bind_some]
      dsimp only
      rw [skipBlanks_cons hcb]
      simp
  | i :: j :: is, n + 1, rest, _, hn, hall => by
      have htail := elements_joined hcomma hclose hne hcb (j :: is) n rest (by simp)
        (by simpa using hn) fun x hx => hall x (List.mem_cons_of_mem i hx)
      have hread := (hall i List.mem_cons_self).1
        (',' :: ' ' :: (joined ((j :: is).map text) ++ close :: rest)) (ends_cons hcomma _)
      obtain ⟨-, c, u, hcu, hc, -⟩ := hall j (by simp)
      have hskip : skipBlanks (' ' :: (joined ((j :: is).map text) ++ close :: rest))
          = joined ((j :: is).map text) ++ close :: rest := by
        rw [List.map_cons, joined_cons_append, hcu]
        exact skipBlanks_cons hc _
      have hcommaBlank : isBlank ',' = false := by decide
      show elements p close (n + 1) (joined (text i :: (j :: is).map text) ++ close :: rest) = _
      rw [joined_cons_append]
      show elements p close (n + 1)
        (text i ++ ',' :: ' ' :: (joined ((j :: is).map text) ++ close :: rest)) = _
      rw [elements, hread, Option.bind_some]
      dsimp only
      rw [skipBlanks_cons hcommaBlank]
      simp only [if_neg hne.symm, if_true]
      rw [hskip, htail]
      rfl

theorem delimited_joined (hcomma : sep ',' = true) (hclose : sep close = true)
    (hne : close ≠ ',') (hcb : isBlank close = false) (is : List ι) (n : Nat)
    (rest : List Char) (hn : is.length ≤ n)
    (hall : ∀ i ∈ is, Takes sep p (text i) (val i) ∧ Starts close (text i)) :
    delimited p close n (joined (is.map text) ++ close :: rest) = some (is.map val, rest) := by
  unfold delimited
  cases is with
  | nil =>
      show (match skipBlanks (close :: rest) with | [] => none | c :: rest => _) = _
      rw [skipBlanks_cons hcb]
      simp
  | cons i is =>
      obtain ⟨-, c, u, hcu, hc, hcc⟩ := hall i List.mem_cons_self
      have helems := elements_joined text val hcomma hclose hne hcb (i :: is) n rest (by simp) hn
        hall
      rw [List.map_cons, joined_cons_append, hcu] at helems ⊢
      rw [List.cons_append] at helems ⊢
      rw [skipBlanks_cons hc]
      simp only [if_neg hcc]
      exact helems

theorem pair_takes {k : Scanner κ} {s t : List Char} {key : κ} {a : α} (hcolon : sep ':' = true)
    (hk : Takes sep k s key) (hp : Takes sep p t a)
    (ht : ∀ rest, skipBlanks (t ++ rest) = t ++ rest) :
    Takes sep (pair k p) (s ++ ':' :: ' ' :: t) (key, a) := by
  intro rest hrest
  have hread := hk (':' :: ' ' :: (t ++ rest)) (ends_cons hcolon _)
  have hskip : skipBlanks (' ' :: (t ++ rest)) = t ++ rest := ht rest
  have hcolonBlank : isBlank ':' = false := by decide
  show pair k p ((s ++ ':' :: ' ' :: t) ++ rest) = _
  rw [List.append_assoc]
  show pair k p (s ++ ':' :: ' ' :: (t ++ rest)) = _
  unfold pair
  rw [hread, Option.bind_some]
  dsimp only
  rw [skipBlanks_cons hcolonBlank]
  simp only
  rw [hskip, hp rest hrest]
  rfl

end Written

end Scanner

end Dagayn
