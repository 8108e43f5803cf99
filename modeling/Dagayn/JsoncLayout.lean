import Dagayn.Jsonc
import Dagayn.JsonText

/-!
# Renderings of a JSON value

A `Layout` is a value with the way it is written: blanks and comments between its tokens, a comma
behind the last element or none. `plain` is the same rendering without the comments and those
commas. The scan turns the one text into the other, and the plain text is read back as the value.
-/

namespace Dagayn

namespace Jsonc

open Scanner JsonText

/-! ## What stands between tokens -/

inductive Filler where
  | blank (c : Char) (h : isBlank c = true)
  | line (text : List Char) (h : '\n' ∉ text)
  | block (text : List Char) (h : ¬ ['*', '/'] <:+: text)

abbrev Gap := List Filler

def Filler.pieces : Filler → List Piece
  | .blank c _ => [.blank c]
  | .line text _ => [.line ('/' :: '/' :: text), .blank '\n']
  | .block text _ => [.block ('/' :: '*' :: (text ++ ['*', '/']))]

/-- The newline that ends a line comment stays. -/
def Filler.kept : Filler → List Piece
  | .blank c _ => [.blank c]
  | .line _ _ => [.blank '\n']
  | .block _ _ => []

/-! ## Layouts -/

structure Key where
  text : List Char
  units : List Nat
  h : string text = some (units, [])
  before : Gap
  behind : Gap

/-- An element has a gap behind it and a gap behind its comma. -/
inductive Layout where
  | word (text : List Char) (d : JsonDoc) (h : (text, d) ∈ jsonWords)
  | num (text : List Char) (h : number text = some (.num text, []))
  | str (text : List Char) (units : List Nat) (h : string text = some (units, []))
  | arr (first : Gap) (items : List (Layout × Gap × Gap)) (trailing : Bool)
  | obj (first : Gap) (fields : List (Key × Layout × Gap × Gap)) (trailing : Bool)

def spaced (fill : Filler → List Piece) (trailing : Bool) :
    List (List Piece × Gap × Gap) → List Piece
  | [] => []
  | [(v, g, g')] =>
      v ++ (g.flatMap fill ++ ((if trailing then [.comma] else []) ++ g'.flatMap fill))
  | (v, g, g') :: more =>
      v ++ (g.flatMap fill ++ .comma :: (g'.flatMap fill ++ spaced fill trailing more))

namespace Layout

theorem sizeOf_item {i : Layout × Gap × Gap} {items : List (Layout × Gap × Gap)} (h : i ∈ items) :
    sizeOf i.1 < sizeOf items := by
  have hlt := List.sizeOf_lt_of_mem h
  obtain ⟨l, g, g'⟩ := i
  simp only [Prod.mk.sizeOf_spec] at hlt ⊢
  omega

theorem sizeOf_field {f : Key × Layout × Gap × Gap} {fields : List (Key × Layout × Gap × Gap)}
    (h : f ∈ fields) : sizeOf f.2.1 < sizeOf fields := by
  have hlt := List.sizeOf_lt_of_mem h
  obtain ⟨k, l, g, g'⟩ := f
  simp only [Prod.mk.sizeOf_spec] at hlt ⊢
  omega

def doc : Layout → JsonDoc
  | word _ d _ => d
  | num text _ => .num text
  | str _ units _ => .str units
  | arr _ items _ => .arr (items.map fun i => i.1.doc)
  | obj _ fields _ => .obj (fields.map fun f => (f.1.units, f.2.1.doc))
termination_by l => sizeOf l
decreasing_by
  · have hlt := sizeOf_item (by assumption)
    simp only [arr.sizeOf_spec]
    omega
  · have hlt := sizeOf_field (by assumption)
    simp only [obj.sizeOf_spec]
    omega

/-- The pieces, with the fillers written in one way and trailing commas written or not. -/
def render (fill : Filler → List Piece) (commas : Bool) : Layout → List Piece
  | word text _ _ => text.map .other
  | num text _ => text.map .other
  | str text _ _ => [.str text]
  | arr first items trailing =>
      .other '[' :: (first.flatMap fill ++ (spaced fill (trailing && commas)
        (items.map fun i => (i.1.render fill commas, i.2.1, i.2.2)) ++ [.close ']']))
  | obj first fields trailing =>
      .other '\x7b' :: (first.flatMap fill ++ (spaced fill (trailing && commas)
        (fields.map fun f => (.str f.1.text :: (f.1.before.flatMap fill ++
          .other ':' :: (f.1.behind.flatMap fill ++ f.2.1.render fill commas)),
            f.2.2.1, f.2.2.2)) ++ [.close '\x7d']))
termination_by l => sizeOf l
decreasing_by
  · have hlt := sizeOf_item (by assumption)
    simp only [arr.sizeOf_spec]
    omega
  · have hlt := sizeOf_field (by assumption)
    simp only [obj.sizeOf_spec]
    omega

theorem nested {P : Layout → Prop} (hword : ∀ text d h, P (word text d h))
    (hnum : ∀ text h, P (num text h)) (hstr : ∀ text units h, P (str text units h))
    (harr : ∀ first items trailing, (∀ i ∈ items, P i.1) → P (arr first items trailing))
    (hobj : ∀ first fields trailing, (∀ f ∈ fields, P f.2.1) → P (obj first fields trailing)) :
    ∀ l, P l
  | word text d h => hword text d h
  | num text h => hnum text h
  | str text units h => hstr text units h
  | arr first items trailing => harr first items trailing fun i _ =>
      nested hword hnum hstr harr hobj i.1
  | obj first fields trailing => hobj first fields trailing fun f _ =>
      nested hword hnum hstr harr hobj f.2.1
termination_by l => sizeOf l
decreasing_by
  · have hlt := sizeOf_item (by assumption)
    simp only [arr.sizeOf_spec]
    omega
  · have hlt := sizeOf_field (by assumption)
    simp only [obj.sizeOf_spec]
    omega

end Layout

/-! ## The pieces of a rendering are read back -/

theorem isSpace_of_isBlank {c : Char} (h : isBlank c = true) : isSpace c = true := by
  simp only [isBlank, Bool.or_eq_true, decide_eq_true_eq] at h
  rcases h with ((rfl | rfl) | rfl) | rfl <;> decide

theorem reads_pieces : ∀ f : Filler, Reads f.pieces
  | .blank _ h => reads_blank (isSpace_of_isBlank h)
  | .line _ h => reads_line h
  | .block _ h => reads_block h

theorem reads_kept : ∀ f : Filler, Reads f.kept
  | .blank _ h => reads_blank (isSpace_of_isBlank h)
  | .line _ _ => reads_blank (by decide)
  | .block _ _ => .nil

theorem ne_of_hexVal {c : Char} {n : Nat} (h : hexVal c = some n) : c ≠ '"' ∧ c ≠ '\\' := by
  constructor <;>
  · rintro rfl
    cases h

theorem takeString_of_stringBody {cs : List Char} {units : List Nat} {rest : List Char}
    (h : stringBody cs = some (units, rest)) : (takeString id cs).2 = rest := by
  fun_induction stringBody cs generalizing units rest with
  | case1 => cases h
  | case2 t =>
      obtain ⟨-, rfl⟩ := Prod.mk.inj (Option.some.inj h)
      rw [takeString_quote]
  | case3 x y z w cs _ ih =>
      obtain ⟨n, hhex, h⟩ := Option.bind_eq_some_iff.mp h
      obtain ⟨r, hr, heq⟩ := Option.map_eq_some_iff.mp h
      obtain ⟨-, rfl⟩ := Prod.mk.inj heq
      obtain ⟨a, hx, hhex⟩ := Option.bind_eq_some_iff.mp hhex
      obtain ⟨b, hy, hhex⟩ := Option.bind_eq_some_iff.mp hhex
      obtain ⟨c, hz, hhex⟩ := Option.bind_eq_some_iff.mp hhex
      obtain ⟨d, hw, -⟩ := Option.map_eq_some_iff.mp hhex
      have hplain : ∀ {c : Char} {n : Nat}, hexVal c = some n → ∀ rest,
          (takeString id (c :: rest)).2 = (takeString id rest).2 := fun hc rest => by
        rw [takeString_plain (ne_of_hexVal hc).1 (ne_of_hexVal hc).2]
      rw [takeString_escape, hplain hx, hplain hy, hplain hz, hplain hw]
      exact ih hr
  | case4 e cs _ _ ih =>
      obtain ⟨n, -, h⟩ := Option.bind_eq_some_iff.mp h
      obtain ⟨r, hr, heq⟩ := Option.map_eq_some_iff.mp h
      obtain ⟨-, rfl⟩ := Prod.mk.inj heq
      rw [takeString_escape]
      exact ih hr
  | case5 => cases h
  | case6 => cases h
  | case7 c cs hquote hslash _ ih =>
      obtain ⟨r, hr, heq⟩ := Option.map_eq_some_iff.mp h
      obtain ⟨-, rfl⟩ := Prod.mk.inj heq
      rw [takeString_plain hquote hslash]
      exact ih hr

theorem takeString_append (cs : List Char) : (takeString id cs).1 ++ (takeString id cs).2 = cs := by
  fun_induction takeString id cs with
  | case1 => rfl
  | case2 => rfl
  | case3 => rfl
  | case4 e rest _ s ih => exact congrArg (fun cs => '\\' :: e :: cs) ih
  | case5 c e rest _ _ s ih => exact congrArg (c :: ·) ih

theorem reads_str {text : List Char} {units : List Nat} (h : string text = some (units, [])) :
    Reads [.str text] := by
  unfold string at h
  split at h
  · rename_i body
    obtain ⟨t, -, hbody, htake⟩ := stringBody_follows body units [] h
    rw [List.append_nil] at hbody
    subst hbody
    intro rest
    have hbehind := takeString_of_stringBody (htake rest)
    have hfront : (takeString id (body ++ rest)).1 = body := by
      have happ := takeString_append (body ++ rest)
      rw [hbehind] at happ
      exact List.append_cancel_right happ
    show pieces ('"' :: body ++ [] ++ rest) = _
    rw [List.append_nil, List.cons_append, pieces_cons, if_pos rfl, hbehind, hfront]
    rfl
  · cases h

/-! ## What the scan makes of a rendering -/

/-- The fillers are written in a way that the scan reads, and of which it keeps the blanks. -/
structure Fills (fill : Filler → List Piece) : Prop where
  reads : ∀ f, Reads (fill f)
  clean : ∀ f rest, clean (fill f ++ rest) = f.kept ++ clean rest
  closes : ∀ f rest, closes (fill f ++ rest) = closes rest

theorem fills_pieces : Fills Filler.pieces where
  reads := reads_pieces
  clean f rest := by cases f <;> rfl
  closes f rest := by cases f <;> rfl

theorem fills_kept : Fills Filler.kept where
  reads := reads_kept
  clean f rest := by cases f <;> rfl
  closes f rest := by cases f <;> rfl

/-- The scan keeps `b` of `a`, whatever follows, and `a` begins no end of a list. -/
def Kept (a b : List Piece) : Prop :=
  ∀ rest, clean (a ++ rest) = b ++ clean rest ∧ closes (a ++ rest) = false

section Fill

variable {fill : Filler → List Piece} (hf : Fills fill)

include hf

theorem Fills.reads_gap (g : Gap) : Reads (g.flatMap fill) := by
  induction g with
  | nil => exact .nil
  | cons f g ih =>
      rw [List.flatMap_cons]
      exact (hf.reads f).append ih

theorem Fills.clean_gap (g : Gap) (rest : List Piece) :
    Jsonc.clean (g.flatMap fill ++ rest) = g.flatMap Filler.kept ++ Jsonc.clean rest := by
  induction g with
  | nil => rfl
  | cons f g ih =>
      rw [List.flatMap_cons, List.append_assoc, hf.clean, ih, List.flatMap_cons,
        List.append_assoc]

theorem Fills.closes_gap (g : Gap) (rest : List Piece) :
    Jsonc.closes (g.flatMap fill ++ rest) = Jsonc.closes rest := by
  induction g with
  | nil => rfl
  | cons f g ih => rw [List.flatMap_cons, List.append_assoc, hf.closes, ih]

theorem Fills.clean_comma (g : Gap) (rest : List Piece) :
    Jsonc.clean (.comma :: (g.flatMap fill ++ rest)) =
      (if Jsonc.closes rest then [] else [.comma]) ++
        (g.flatMap Filler.kept ++ Jsonc.clean rest) := by
  rw [Jsonc.clean, hf.closes_gap, hf.clean_gap]
  split <;> rfl

variable {ι : Type} {v k : ι → List Piece} {g e : ι → Gap}

theorem Fills.reads_spaced (trailing : Bool) : ∀ is : List ι, (∀ i ∈ is, Reads (v i)) →
    Reads (spaced fill trailing (is.map fun i => (v i, g i, e i)))
  | [], _ => .nil
  | [i], h => by
      have hcomma : Reads (if trailing then [.comma] else []) := by
        split
        · exact reads_comma
        · exact .nil
      exact (h i List.mem_cons_self).append
        ((hf.reads_gap _).append (hcomma.append (hf.reads_gap _)))
  | i :: j :: is, h => by
      have hmore := Fills.reads_spaced trailing (j :: is) fun i' hi' =>
        h i' (List.mem_cons_of_mem i hi')
      exact (h i List.mem_cons_self).append
        ((hf.reads_gap _).append (reads_comma.append ((hf.reads_gap _).append hmore)))

theorem Fills.clean_spaced (trailing : Bool) (c : Char) (rest : List Piece) : ∀ is : List ι,
    (∀ i ∈ is, Kept (v i) (k i)) →
    Jsonc.clean (spaced fill trailing (is.map fun i => (v i, g i, e i)) ++ .close c :: rest) =
      spaced Filler.kept false (is.map fun i => (k i, g i, e i)) ++
        .close c :: Jsonc.clean rest
  | [], _ => rfl
  | [i], h => by
      have hi := fun rest => (h i List.mem_cons_self rest).1
      show Jsonc.clean (v i ++ ((g i).flatMap fill ++ ((if trailing then [.comma] else []) ++
        (e i).flatMap fill)) ++ .close c :: rest) = k i ++ ((g i).flatMap Filler.kept ++
          ([] ++ (e i).flatMap Filler.kept)) ++ .close c :: Jsonc.clean rest
      simp only [List.append_assoc]
      rw [hi, hf.clean_gap]
      cases trailing with
      | false =>
          show k i ++ ((g i).flatMap Filler.kept ++
            Jsonc.clean ((e i).flatMap fill ++ .close c :: rest)) = _
          rw [hf.clean_gap]
          rfl
      | true =>
          show k i ++ ((g i).flatMap Filler.kept ++
            Jsonc.clean (.comma :: ((e i).flatMap fill ++ .close c :: rest))) = _
          rw [hf.clean_comma]
          rfl
  | i :: j :: is, h => by
      have hi := fun rest => (h i List.mem_cons_self rest).1
      have hmore := Fills.clean_spaced trailing c rest (j :: is) fun i' hi' =>
        h i' (List.mem_cons_of_mem i hi')
      have hopen : Jsonc.closes (spaced fill trailing
          ((j :: is).map fun i => (v i, g i, e i)) ++ .close c :: rest) = false := by
        have hj := fun rest => (h j (by simp) rest).2
        cases is with
        | nil =>
            show Jsonc.closes (v j ++ _ ++ _) = false
            rw [List.append_assoc]
            exact hj _
        | cons j' is =>
            show Jsonc.closes (v j ++ _ ++ _) = false
            rw [List.append_assoc]
            exact hj _
      show Jsonc.clean (v i ++ ((g i).flatMap fill ++ .comma :: ((e i).flatMap fill ++
        spaced fill trailing ((j :: is).map fun i => (v i, g i, e i)))) ++ .close c :: rest) =
          k i ++ ((g i).flatMap Filler.kept ++ .comma :: ((e i).flatMap Filler.kept ++
            spaced Filler.kept false ((j :: is).map fun i => (k i, g i, e i)))) ++
              .close c :: Jsonc.clean rest
      simp only [List.append_assoc, List.cons_append]
      rw [hi, hf.clean_gap, hf.clean_comma, hopen, hmore]
      rfl

end Fill

/-! ### Values -/

theorem isPlain_of_isNumberChar {c : Char} (h : isNumberChar c = true) : isPlain c = true := by
  have hne : ∀ a : Char, isNumberChar a = false → c ≠ a := by
    rintro a ha rfl
    rw [ha] at h
    cases h
  simp only [isPlain, isSpace, List.mem_cons, List.not_mem_nil, or_false, Bool.and_eq_true,
    Bool.not_eq_true', decide_eq_false_iff_not, decide_eq_true_eq, not_or]
  exact ⟨⟨hne _ (by decide), hne _ (by decide), hne _ (by decide), hne _ (by decide),
    hne _ (by decide)⟩, hne _ (by decide), hne _ (by decide), hne _ (by decide),
    hne _ (by decide), hne _ (by decide)⟩

theorem isNumberChar_of_number {text : List Char} {d : JsonDoc}
    (h : number text = some (d, [])) : ∀ c ∈ text, isNumberChar c = true := by
  rw [number] at h
  split at h
  · have hdrop : text.dropWhile isNumberChar = [] := (Prod.mk.inj (Option.some.inj h)).2
    exact List.dropWhile_eq_nil_iff.mp hdrop
  · cases h

theorem isPlain_of_word {text : List Char} {d : JsonDoc} (h : (text, d) ∈ jsonWords) :
    ∀ c ∈ text, isPlain c = true := by
  simp only [jsonWords, List.mem_cons, List.not_mem_nil, or_false, Prod.mk.injEq] at h
  rcases h with ⟨rfl, -⟩ | ⟨rfl, -⟩ | ⟨rfl, -⟩ <;> exact List.all_eq_true.mp (by decide)

theorem kept_others {text : List Char} (hne : text ≠ []) :
    Kept (text.map .other) (text.map .other) := by
  intro rest
  constructor
  · clear hne
    induction text with
    | nil => rfl
    | cons c text ih =>
        rw [List.map_cons, List.cons_append, clean, ih]
        rfl
  · obtain ⟨c, text, rfl⟩ := List.exists_cons_of_ne_nil hne
    rfl

theorem ne_nil_of_number {text : List Char} {d : JsonDoc} (h : number text = some (d, [])) :
    text ≠ [] := by
  rintro rfl
  cases h

theorem ne_nil_of_word {text : List Char} {d : JsonDoc} (h : (text, d) ∈ jsonWords) :
    text ≠ [] := by
  rintro rfl
  simp [jsonWords] at h

namespace Layout

variable {fill : Filler → List Piece}

/-- The rendering without comments and trailing commas. -/
def kept (l : Layout) : List Piece := l.render Filler.kept false

theorem reads_render (hf : Fills fill) (commas : Bool) : ∀ l, Reads (render fill commas l) := by
  intro l
  induction l using nested with
  | hword text d h =>
      rw [render]
      exact reads_others (isPlain_of_word h)
  | hnum text h =>
      rw [render]
      exact reads_others fun c hc => isPlain_of_isNumberChar (isNumberChar_of_number h c hc)
  | hstr text units h =>
      rw [render]
      exact reads_str h
  | harr first items trailing ih =>
      rw [render]
      exact (reads_other (by decide)).cons ((hf.reads_gap first).append
        ((hf.reads_spaced _ items ih).append (reads_close (.inr rfl))))
  | hobj first fields trailing ih =>
      rw [render]
      refine (reads_other (by decide)).cons ((hf.reads_gap first).append
        ((hf.reads_spaced _ fields fun f hmem => ?_).append (reads_close (.inl rfl))))
      exact (reads_str f.1.h).cons ((hf.reads_gap _).append ((reads_other (by decide)).cons
        ((hf.reads_gap _).append (ih f hmem))))

theorem kept_render (hf : Fills fill) (commas : Bool) :
    ∀ l, Kept (render fill commas l) l.kept := by
  intro l
  induction l using nested with
  | hword text d h =>
      rw [kept, render, render]
      exact kept_others (ne_nil_of_word h)
  | hnum text h =>
      rw [kept, render, render]
      exact kept_others (ne_nil_of_number h)
  | hstr text units h =>
      rw [kept, render, render]
      exact fun rest => ⟨rfl, rfl⟩
  | harr first items trailing ih =>
      rw [kept, render, render]
      refine fun rest => ⟨?_, rfl⟩
      have hitems := hf.clean_spaced (g := fun i => i.2.1) (e := fun i => i.2.2)
        (trailing && commas) ']' rest items ih
      simp only [List.cons_append, List.append_assoc, List.nil_append]
      rw [clean, hf.clean_gap, hitems, Bool.and_false]
      rfl
  | hobj first fields trailing ih =>
      rw [kept, render, render]
      refine fun rest => ⟨?_, rfl⟩
      have hfields := hf.clean_spaced (g := fun f => f.2.2.1) (e := fun f => f.2.2.2)
        (v := fun f => .str f.1.text :: (f.1.before.flatMap fill ++
          .other ':' :: (f.1.behind.flatMap fill ++ f.2.1.render fill commas)))
        (k := fun f => .str f.1.text :: (f.1.before.flatMap Filler.kept ++
          .other ':' :: (f.1.behind.flatMap Filler.kept ++ f.2.1.kept)))
        (trailing && commas) '\x7d' rest fields fun f hmem rest => ⟨by
          simp only [List.cons_append, List.append_assoc]
          rw [clean, hf.clean_gap, clean, hf.clean_gap, (ih f hmem rest).1], rfl⟩
      simp only [List.cons_append, List.append_assoc, List.nil_append]
      rw [clean, hf.clean_gap, hfields, Bool.and_false]
      rfl

end Layout

/-! ## The plain rendering is read as the value -/

theorem skipBlanks_append {w : List Char} (hw : ∀ c ∈ w, isBlank c = true) (cs : List Char) :
    skipBlanks (w ++ cs) = skipBlanks cs := List.dropWhile_append_of_pos hw

theorem isBlank_of_mem_kept {g : Gap} : ∀ c ∈ textOf (g.flatMap Filler.kept),
    isBlank c = true := by
  induction g with
  | nil => exact fun c hc => absurd hc List.not_mem_nil
  | cons f g ih =>
      intro c hc
      rw [List.flatMap_cons, textOf_append, List.mem_append] at hc
      rcases hc with hc | hc
      · cases f with
        | blank b h =>
            obtain rfl := List.mem_singleton.mp hc
            exact h
        | line text h =>
            obtain rfl := List.mem_singleton.mp hc
            rfl
        | block text h => exact absurd hc List.not_mem_nil
      · exact ih c hc

def Starts (text : List Char) : Prop :=
  ∃ c u, text = c :: u ∧ isBlank c = false ∧ c ≠ ']' ∧ c ≠ '\x7d'

theorem Starts.skipBlanks {text : List Char} (h : Starts text) (rest : List Char) :
    skipBlanks (text ++ rest) = text ++ rest := by
  obtain ⟨c, u, rfl, hc, -⟩ := h
  exact skipBlanks_cons hc (u ++ rest)

theorem Starts.append {text : List Char} (h : Starts text) (rest : List Char) :
    Starts (text ++ rest) := by
  obtain ⟨c, u, rfl, hc⟩ := h
  exact ⟨c, u ++ rest, rfl, hc⟩

section Lists

variable {ι α : Type} {p : Scanner α} {v : ι → List Piece} {g e : ι → Gap} {val : ι → α}
variable {close : Char}

theorem ends_gap {cs : List Char} (w : Gap) (hcs : Ends separates cs) :
    Ends separates (textOf (w.flatMap Filler.kept) ++ cs) :=
  ends_blanks separates_of_isBlank isBlank_of_mem_kept hcs

theorem skipBlanks_gap (w : Gap) (cs : List Char) :
    skipBlanks (textOf (w.flatMap Filler.kept) ++ cs) = skipBlanks cs :=
  skipBlanks_append isBlank_of_mem_kept cs

theorem starts_spaced {fill : Filler → List Piece} {trailing : Bool} {i : ι} {is : List ι}
    (h : Starts (textOf (v i))) :
    Starts (textOf (spaced fill trailing ((i :: is).map fun i => (v i, g i, e i)))) := by
  cases is with
  | nil =>
      show Starts (textOf (v i ++ _))
      rw [textOf_append]
      exact h.append _
  | cons j is =>
      show Starts (textOf (v i ++ _))
      rw [textOf_append]
      exact h.append _

theorem elements_spaced (hclose : close = ']' ∨ close = '\x7d') :
    ∀ (is : List ι) (n : Nat) (rest : List Char), is ≠ [] → is.length ≤ n →
      (∀ i ∈ is, Takes separates p (textOf (v i)) (val i) ∧ Starts (textOf (v i))) →
      elements p close n (textOf (spaced Filler.kept false (is.map fun i => (v i, g i, e i))) ++
        close :: rest) = some (is.map val, rest)
  | [], _, _, h, _, _ => absurd rfl h
  | i :: is, 0, _, _, h, _ => absurd h (by simp)
  | [i], n + 1, rest, _, _, hall => by
      have hblank : isBlank close = false := by rcases hclose with rfl | rfl <;> rfl
      have hsep : separates close = true := by rcases hclose with rfl | rfl <;> rfl
      have htext : textOf (spaced Filler.kept false ([i].map fun i => (v i, g i, e i))) ++
          close :: rest = textOf (v i) ++ (textOf ((g i).flatMap Filler.kept) ++
            (textOf ((e i).flatMap Filler.kept) ++ close :: rest)) := by
        show textOf (v i ++ ((g i).flatMap Filler.kept ++ ([] ++ (e i).flatMap Filler.kept))) ++
          close :: rest = _
        simp only [textOf_append, List.append_assoc, List.nil_append]
      have hread := (hall i List.mem_cons_self).1 _
        (ends_gap (g i) (ends_gap (e i) (ends_cons hsep rest)))
      rw [htext, elements, hread, Option.bind_some]
      dsimp only
      rw [skipBlanks_gap, skipBlanks_gap, skipBlanks_cons hblank]
      exact if_pos rfl
  | i :: j :: is, n + 1, rest, _, hn, hall => by
      have hne : ',' ≠ close := by rcases hclose with rfl | rfl <;> decide
      have htail := elements_spaced hclose (j :: is) n rest (List.cons_ne_nil _ _)
        (by simpa using hn) fun x hx => hall x (List.mem_cons_of_mem i hx)
      have htext : textOf (spaced Filler.kept false
          ((i :: j :: is).map fun i => (v i, g i, e i))) ++ close :: rest =
            textOf (v i) ++ (textOf ((g i).flatMap Filler.kept) ++ ',' ::
              (textOf ((e i).flatMap Filler.kept) ++ (textOf (spaced Filler.kept false
                ((j :: is).map fun i => (v i, g i, e i))) ++ close :: rest))) := by
        show textOf (v i ++ ((g i).flatMap Filler.kept ++ .comma :: ((e i).flatMap Filler.kept ++
          spaced Filler.kept false ((j :: is).map fun i => (v i, g i, e i))))) ++ close :: rest = _
        rw [← List.singleton_append (x := Piece.comma)]
        simp only [textOf_append, List.append_assoc]
        rfl
      have hstart : Starts (textOf (spaced Filler.kept false
          ((j :: is).map fun i => (v i, g i, e i)))) := starts_spaced (hall j (by simp)).2
      have hcomma : separates ',' = true := rfl
      have hread := fun cs => (hall i List.mem_cons_self).1 _
        (ends_gap (g i) (ends_cons hcomma cs))
      rw [htext, elements, hread, Option.bind_some]
      dsimp only
      rw [skipBlanks_gap, skipBlanks_cons (show isBlank ',' = false from rfl)]
      dsimp only
      rw [if_neg hne, if_pos rfl, skipBlanks_gap, hstart.skipBlanks, htail]
      rfl

theorem delimited_spaced (hclose : close = ']' ∨ close = '\x7d') (w : Gap) (is : List ι) (n : Nat)
    (rest : List Char) (hn : is.length ≤ n)
    (hall : ∀ i ∈ is, Takes separates p (textOf (v i)) (val i) ∧ Starts (textOf (v i))) :
    delimited p close n (textOf (w.flatMap Filler.kept) ++
      (textOf (spaced Filler.kept false (is.map fun i => (v i, g i, e i))) ++ close :: rest)) =
        some (is.map val, rest) := by
  have hblank : isBlank close = false := by rcases hclose with rfl | rfl <;> rfl
  unfold delimited
  rw [skipBlanks_gap]
  cases is with
  | nil =>
      have hnone : textOf (spaced Filler.kept false (([] : List ι).map fun i => (v i, g i, e i))) ++
          close :: rest = close :: rest := rfl
      rw [hnone, skipBlanks_cons hblank]
      exact if_pos rfl
  | cons i is =>
      have hstart : Starts (textOf (spaced Filler.kept false
          ((i :: is).map fun i => (v i, g i, e i)))) := starts_spaced (hall i List.mem_cons_self).2
      have hread := elements_spaced (g := g) (e := e) hclose (i :: is) n rest
        (List.cons_ne_nil _ _) hn hall
      rw [hstart.skipBlanks]
      obtain ⟨c, u, hcu, -, hbracket, hbrace⟩ := hstart
      have hne : c ≠ close := by rcases hclose with rfl | rfl <;> assumption
      rw [hcu] at hread ⊢
      exact (if_neg hne).trans hread

end Lists

/-! ### Scalars -/

theorem textOf_word {text : List Char} {d : JsonDoc} (h : (text, d) ∈ jsonWords) :
    TextOf text d := by
  simp only [jsonWords, List.mem_cons, List.not_mem_nil, or_false, Prod.mk.injEq] at h
  rcases h with ⟨rfl, rfl⟩ | ⟨rfl, rfl⟩ | ⟨rfl, rfl⟩ <;> rfl

theorem textOf_str {text : List Char} {units : List Nat}
    (h : string text = some (units, [])) : TextOf text (.str units) := by
  unfold string at h
  split at h
  · rw [TextOf, List.length_cons, value, h]
    rfl
  · cases h

theorem textOf_num {text : List Char} {d : JsonDoc} (h : number text = some (d, [])) :
    TextOf text d := by
  obtain ⟨c, rest, rfl⟩ := List.exists_cons_of_ne_nil (ne_nil_of_number h)
  have hc := isNumberChar_of_number h c List.mem_cons_self
  rw [TextOf, List.length_cons, value.eq_def]
  dsimp only
  have hne : ∀ a : Char, isNumberChar a = false → c ≠ a := by
    rintro a ha rfl
    rw [ha] at hc
    cases hc
  split
  · rename_i heq
    exact absurd (List.cons.inj heq).1 (hne _ (by decide))
  · rename_i heq
    exact absurd (List.cons.inj heq).1 (hne _ (by decide))
  · rename_i heq
    exact absurd (List.cons.inj heq).1 (hne _ (by decide))
  · rw [h]
    rfl

theorem starts_of_textOf {text : List Char} {d : JsonDoc} (h : TextOf text d) : Starts text := by
  obtain ⟨c, u, rfl, hc⟩ := h.start
  refine ⟨c, u, rfl, hc, ?_, ?_⟩ <;>
  · rintro rfl
    exact absurd h (by simp [TextOf, value, number, word, jsonWords, isNumberChar, isNumber,
      isMagnitude])

theorem textOf_others (text : List Char) : textOf (text.map .other) = text := by
  induction text with
  | nil => rfl
  | cons c text ih => exact congrArg (c :: ·) ih

namespace Layout

/-- What a reader with fuel makes of a plain rendering. -/
def ReadAs (l : Layout) : Prop :=
  Starts (textOf l.kept) ∧ ∀ m, (textOf l.kept).length ≤ m →
    Takes separates (value jsonWords m) (textOf l.kept) l.doc

theorem readAs_of_textOf {l : Layout} (h : TextOf (textOf l.kept) l.doc) : l.ReadAs :=
  ⟨starts_of_textOf h, fun _ hm => h.takes [] hm⟩

end Layout


namespace Layout

theorem kept_arr (first : Gap) (items : List (Layout × Gap × Gap)) (trailing : Bool) :
    (arr first items trailing).kept = .other '[' :: (first.flatMap Filler.kept ++
      (spaced Filler.kept false (items.map fun i => (i.1.kept, i.2.1, i.2.2)) ++
        [.close ']'])) := by
  rw [kept, render, Bool.and_false]
  rfl

def fieldKept (f : Key × Layout × Gap × Gap) : List Piece :=
  .str f.1.text :: (f.1.before.flatMap Filler.kept ++
    .other ':' :: (f.1.behind.flatMap Filler.kept ++ f.2.1.kept))

theorem kept_obj (first : Gap) (fields : List (Key × Layout × Gap × Gap)) (trailing : Bool) :
    (obj first fields trailing).kept = .other '\x7b' :: (first.flatMap Filler.kept ++
      (spaced Filler.kept false (fields.map fun f => (fieldKept f, f.2.2.1, f.2.2.2)) ++
        [.close '\x7d'])) := by
  rw [kept, render, Bool.and_false]
  rfl

theorem length_le_spaced {ι : Type} {v : ι → List Piece} {g e : ι → Gap} {i : ι} :
    ∀ is : List ι, i ∈ is → (textOf (v i)).length + is.length ≤
      (textOf (spaced Filler.kept false (is.map fun i => (v i, g i, e i)))).length + 1
  | [], h => absurd h List.not_mem_nil
  | [j], h => by
      obtain rfl := List.mem_singleton.mp h
      show _ ≤ (textOf (v i ++ _)).length + 1
      rw [textOf_append, List.length_append, List.length_singleton]
      omega
  | j :: j' :: is, h => by
      show _ ≤ (textOf (v j ++ ((g j).flatMap Filler.kept ++ .comma ::
        ((e j).flatMap Filler.kept ++ spaced Filler.kept false
          ((j' :: is).map fun i => (v i, g i, e i)))))).length + 1
      have hcomma : ∀ ps, (textOf (.comma :: ps)).length = (textOf ps).length + 1 := fun _ => rfl
      have hmore := length_le_spaced (v := v) (g := g) (e := e) (j' :: is) List.mem_cons_self
      simp only [textOf_append, List.length_append, hcomma, List.length_cons] at hmore ⊢
      rcases List.mem_cons.mp h with rfl | h
      · omega
      · have hi := length_le_spaced (v := v) (g := g) (e := e) (j' :: is) h
        simp only [List.length_cons] at hi
        omega

theorem fuel_of_list {ι : Type} {v : ι → List Piece} {g e : ι → Gap} {opening : Piece} {first : Gap}
    {close : Char} {is : List ι} {m : Nat}
    (hm : (textOf (opening :: (first.flatMap Filler.kept ++
      (spaced Filler.kept false (is.map fun i => (v i, g i, e i)) ++ [.close close])))).length ≤
        m + opening.text.length) :
    is.length ≤ m ∧ ∀ i ∈ is, (textOf (v i)).length ≤ m := by
  have hone : ∀ p ps, (textOf (p :: ps)).length = p.text.length + (textOf ps).length :=
    fun p ps => List.length_append
  simp only [hone, textOf_append, List.length_append, Piece.text, List.length_singleton] at hm
  have hlength : ∀ i ∈ is, (textOf (v i)).length + is.length ≤ m := fun i hi => by
    have hle := length_le_spaced (v := v) (g := g) (e := e) is hi
    omega
  refine ⟨?_, fun i hi => (Nat.le_add_right _ _).trans (hlength i hi)⟩
  cases is with
  | nil => exact Nat.zero_le m
  | cons i is => exact (Nat.le_add_left _ _).trans (hlength i List.mem_cons_self)

theorem takes_field {f : Key × Layout × Gap × Gap} (h : f.2.1.ReadAs) {m : Nat}
    (hm : (textOf f.2.1.kept).length ≤ m) :
    Takes separates (pair string (value jsonWords m)) (textOf (fieldKept f))
      (f.1.units, f.2.1.doc) := by
  obtain ⟨t, -, htext, hkey⟩ := string_follows f.1.text f.1.units [] f.1.h
  rw [List.append_nil] at htext
  subst htext
  intro rest hrest
  have hcolon : separates ':' = true := rfl
  have hsplit : textOf (fieldKept f) ++ rest = f.1.text ++
      (textOf (f.1.before.flatMap Filler.kept) ++ ':' ::
        (textOf (f.1.behind.flatMap Filler.kept) ++ (textOf f.2.1.kept ++ rest))) := by
    show f.1.text ++ textOf (f.1.before.flatMap Filler.kept ++ .other ':' ::
      (f.1.behind.flatMap Filler.kept ++ f.2.1.kept)) ++ rest = _
    rw [← List.singleton_append (x := Piece.other ':')]
    simp only [textOf_append, List.append_assoc]
    rfl
  have hread : ∀ cs, string (f.1.text ++ (textOf (f.1.before.flatMap Filler.kept) ++ ':' :: cs)) =
      some (f.1.units, textOf (f.1.before.flatMap Filler.kept) ++ ':' :: cs) := fun cs =>
    hkey f.1.text.length (Nat.le_refl _) _ (ends_gap f.1.before (ends_cons hcolon cs))
  rw [hsplit, pair, hread, Option.bind_some]
  dsimp only
  rw [skipBlanks_gap, skipBlanks_cons (show isBlank ':' = false from rfl)]
  simp only
  rw [skipBlanks_gap, h.1.skipBlanks, h.2 m hm rest hrest]
  rfl

theorem length_le_field (f : Key × Layout × Gap × Gap) :
    (textOf f.2.1.kept).length ≤ (textOf (fieldKept f)).length := by
  have hone : ∀ p ps, (textOf (p :: ps)).length = p.text.length + (textOf ps).length :=
    fun p ps => List.length_append
  simp only [fieldKept, hone, textOf_append, List.length_append]
  omega

theorem starts_field (f : Key × Layout × Gap × Gap) : Starts (textOf (fieldKept f)) :=
  (starts_of_textOf (textOf_str f.1.h)).append _

theorem readAs : ∀ l : Layout, l.ReadAs := by
  intro l
  induction l using nested with
  | hword text d h =>
      refine readAs_of_textOf ?_
      rw [kept, render, textOf_others, doc]
      exact textOf_word h
  | hnum text h =>
      refine readAs_of_textOf ?_
      rw [kept, render, textOf_others, doc]
      exact textOf_num h
  | hstr text units h =>
      refine readAs_of_textOf ?_
      have htext : textOf (str text units h).kept = text := by
        rw [kept, render]
        exact List.append_nil text
      rw [htext, doc]
      exact textOf_str h
  | harr first items trailing ih =>
      rw [ReadAs, kept_arr, doc]
      refine ⟨⟨'[', _, rfl, rfl, by decide, by decide⟩, fun m hm rest _ => ?_⟩
      cases m with
      | zero => exact absurd hm (Nat.not_succ_le_zero _)
      | succ m =>
          obtain ⟨hcount, hfuel⟩ := fuel_of_list hm
          have hread := delimited_spaced (g := fun i : Layout × Gap × Gap => i.2.1)
            (e := fun i => i.2.2) (.inl rfl) first items m rest hcount
            fun i hi => ⟨(ih i hi).2 m (hfuel i hi), (ih i hi).1⟩
          show value jsonWords (m + 1) ('[' :: (textOf _ ++ rest)) = _
          rw [value, textOf_append, textOf_append, List.append_assoc, List.append_assoc]
          exact congrArg (Option.map _) hread
  | hobj first fields trailing ih =>
      rw [ReadAs, kept_obj, doc]
      refine ⟨⟨'\x7b', _, rfl, rfl, by decide, by decide⟩, fun m hm rest _ => ?_⟩
      cases m with
      | zero => exact absurd hm (Nat.not_succ_le_zero _)
      | succ m =>
          obtain ⟨hcount, hfuel⟩ := fuel_of_list hm
          have hvalue : ∀ f ∈ fields, (textOf f.2.1.kept).length ≤ m := fun f hf =>
            (length_le_field f).trans (hfuel f hf)
          have hread := delimited_spaced (g := fun f : Key × Layout × Gap × Gap => f.2.2.1)
            (e := fun f => f.2.2.2) (.inr rfl) first fields m rest hcount
            fun f hf => ⟨takes_field (ih f hf) (hvalue f hf), starts_field f⟩
          show value jsonWords (m + 1) ('\x7b' :: (textOf _ ++ rest)) = _
          rw [value, textOf_append, textOf_append, List.append_assoc, List.append_assoc]
          exact congrArg (Option.map _) hread

end Layout

/-! ## Whole texts -/

/-- A value with what stands around it. -/
structure Rendering where
  before : Gap
  layout : Layout
  behind : Gap

namespace Rendering

def pieces (r : Rendering) (fill : Filler → List Piece) (commas : Bool) : List Piece :=
  r.before.flatMap fill ++ (r.layout.render fill commas ++ r.behind.flatMap fill)

/-- The text, with its comments and trailing commas. -/
def written (r : Rendering) : List Char := textOf (r.pieces Filler.pieces true)

def plain (r : Rendering) : List Char := textOf (r.pieces Filler.kept false)

variable {fill : Filler → List Piece}

theorem reads (hf : Fills fill) (r : Rendering) (commas : Bool) : Reads (r.pieces fill commas) :=
  (hf.reads_gap _).append ((Layout.reads_render hf commas _).append (hf.reads_gap _))

theorem clean_pieces (hf : Fills fill) (r : Rendering) (commas : Bool) :
    clean (r.pieces fill commas) = r.pieces Filler.kept false := by
  have hbehind := hf.clean_gap r.behind []
  rw [List.append_nil, clean, List.append_nil] at hbehind
  rw [pieces, hf.clean_gap, (Layout.kept_render hf commas r.layout _).1, hbehind]
  rfl

theorem strip_textOf (hf : Fills fill) (r : Rendering) (commas : Bool) :
    stripJsoncComments (textOf (r.pieces fill commas)) = r.plain := by
  rw [stripJsoncComments_eq, (r.reads hf commas).textOf_eq, clean_pieces hf]
  rfl

theorem strip_written (r : Rendering) : stripJsoncComments r.written = r.plain :=
  r.strip_textOf fills_pieces true

theorem strip_plain (r : Rendering) : stripJsoncComments r.plain = r.plain :=
  r.strip_textOf fills_kept false

theorem parse_plain (r : Rendering) : parse jsonWords r.plain = some r.layout.doc := by
  obtain ⟨hstart, hread⟩ := r.layout.readAs
  have htext : r.plain = textOf (r.before.flatMap Filler.kept) ++
      (textOf r.layout.kept ++ textOf (r.behind.flatMap Filler.kept)) := by
    rw [plain, pieces, textOf_append, textOf_append]
    rfl
  have hends : Ends separates (textOf (r.behind.flatMap Filler.kept)) := by
    have hgap := ends_gap r.behind (show Ends separates [] from nofun)
    rwa [List.append_nil] at hgap
  have hfuel : (textOf r.layout.kept).length ≤ r.plain.length := by
    rw [htext, List.length_append, List.length_append]
    omega
  have hbehind := skipBlanks_gap r.behind []
  rw [List.append_nil] at hbehind
  rw [parse, htext, skipBlanks_gap, hstart.skipBlanks, ← htext, hread _ hfuel _ hends,
    Option.bind_some, hbehind]
  rfl

end Rendering

def BareGap (g : Gap) : Prop := ∀ f ∈ g, ∃ c h, f = .blank c h

/-- A rendering without comments and trailing commas. -/
inductive Bare : Layout → Prop
  | word (text : List Char) (d : JsonDoc) (h) : Bare (.word text d h)
  | num (text : List Char) (h) : Bare (.num text h)
  | str (text : List Char) (units : List Nat) (h) : Bare (.str text units h)
  | arr {first : Gap} {items : List (Layout × Gap × Gap)} : BareGap first →
      (∀ i ∈ items, Bare i.1) → (∀ i ∈ items, BareGap i.2.1 ∧ BareGap i.2.2) →
      Bare (.arr first items false)
  | obj {first : Gap} {fields : List (Key × Layout × Gap × Gap)} : BareGap first →
      (∀ f ∈ fields, Bare f.2.1) →
      (∀ f ∈ fields, BareGap f.1.before ∧ BareGap f.1.behind ∧ BareGap f.2.2.1 ∧
        BareGap f.2.2.2) → Bare (.obj first fields false)

theorem BareGap.flatMap_eq {g : Gap} (h : BareGap g) :
    g.flatMap Filler.pieces = g.flatMap Filler.kept := by
  refine List.flatMap_congr fun f hf => ?_
  obtain ⟨c, hc, rfl⟩ := h f hf
  rfl

theorem spaced_congr {ι : Type} {v k : ι → List Piece} {g e : ι → Gap} (trailing : Bool) :
    ∀ is : List ι, (∀ i ∈ is, v i = k i) → (∀ i ∈ is, BareGap (g i) ∧ BareGap (e i)) →
      spaced Filler.pieces trailing (is.map fun i => (v i, g i, e i)) =
        spaced Filler.kept trailing (is.map fun i => (k i, g i, e i))
  | [], _, _ => rfl
  | [i], hv, hg => by
      obtain ⟨hgi, hei⟩ := hg i List.mem_cons_self
      show v i ++ (_ ++ (_ ++ _)) = k i ++ (_ ++ (_ ++ _))
      rw [hv i List.mem_cons_self, hgi.flatMap_eq, hei.flatMap_eq]
  | i :: j :: is, hv, hg => by
      obtain ⟨hgi, hei⟩ := hg i List.mem_cons_self
      have hmore := spaced_congr trailing (j :: is)
        (fun i' hi' => hv i' (List.mem_cons_of_mem i hi'))
        (fun i' hi' => hg i' (List.mem_cons_of_mem i hi'))
      show v i ++ (_ ++ .comma :: (_ ++ spaced Filler.pieces trailing _)) =
        k i ++ (_ ++ .comma :: (_ ++ spaced Filler.kept trailing _))
      rw [hv i List.mem_cons_self, hgi.flatMap_eq, hei.flatMap_eq]
      exact congrArg (fun ps => k i ++ (_ ++ Piece.comma :: (_ ++ ps))) hmore

theorem Bare.render_eq {l : Layout} (h : Bare l) : l.render Filler.pieces true = l.kept := by
  induction h with
  | word text d h => rw [Layout.kept, Layout.render, Layout.render]
  | num text h => rw [Layout.kept, Layout.render, Layout.render]
  | str text units h => rw [Layout.kept, Layout.render, Layout.render]
  | arr hfirst _ hgaps ih =>
      rw [Layout.kept_arr, Layout.render, hfirst.flatMap_eq, spaced_congr _ _ ih hgaps]
      rfl
  | obj hfirst _ hgaps ih =>
      have hfields := fun f hf => (hgaps f hf).2.2
      rw [Layout.kept_obj, Layout.render, hfirst.flatMap_eq,
        spaced_congr _ _ (fun f hf => ?_) hfields]
      · rfl
      · obtain ⟨hbefore, hbehind, -⟩ := hgaps f hf
        rw [hbefore.flatMap_eq, hbehind.flatMap_eq, ih f hf]
        rfl

/-- A whole rendering without comments and trailing commas. -/
structure Rendering.Bare (r : Rendering) : Prop where
  before : BareGap r.before
  layout : Jsonc.Bare r.layout
  behind : BareGap r.behind

theorem Rendering.Bare.written_eq {r : Rendering} (h : r.Bare) : r.written = r.plain := by
  rw [written, plain, pieces, pieces, h.before.flatMap_eq, h.layout.render_eq,
    h.behind.flatMap_eq]
  rfl

/-- The string literals of a text, in their order. -/
def strings (ps : List Piece) : List (List Char) :=
  ps.filterMap fun p =>
    match p with
    | .str text => some text
    | _ => none

theorem strings_clean (ps : List Piece) : strings (clean ps) = strings ps := by
  induction ps with
  | nil => rfl
  | cons p ps ih =>
      cases p with
      | str text => exact congrArg (text :: ·) ih
      | line text => exact ih
      | block text => exact ih
      | close c => exact ih
      | comma =>
          rw [clean]
          split
          · exact ih
          · exact ih
      | blank c => exact ih
      | other c => exact ih

/-- `read_javascript_tsconfig`, on what `read_to_string` gives. -/
def readJavascriptTsconfig (raw : Option (List Char)) : Option JsonDoc :=
  raw.bind fun raw => parse jsonWords (stripJsoncComments raw)

/-- Every rendering of a value is read as the value; the scan changes no rendering twice, and none
without comments and trailing commas; it keeps the string literals, and gives UTF-8 always. -/
theorem strip_renderings :
    (∀ r : Rendering, readJavascriptTsconfig (some r.written) = some r.layout.doc ∧
      (r.Bare → stripJsoncComments r.written = r.written) ∧
      stripJsoncComments (stripJsoncComments r.written) = stripJsoncComments r.written ∧
      strings (pieces (stripJsoncComments r.written)) = strings (pieces r.written)) ∧
    ∀ text, ∃ out, fromUtf8 (stripFrom [] none (utf8 text)) = some out := by
  refine ⟨fun r => ⟨?_, fun hbare => ?_, ?_, ?_⟩, fun text => ⟨_, stripBytes_utf8 text⟩⟩
  · rw [readJavascriptTsconfig, Option.bind_some, r.strip_written, r.parse_plain]
  · rw [r.strip_written, hbare.written_eq]
  · rw [r.strip_written, r.strip_plain]
  · rw [r.strip_written, Rendering.plain, Rendering.written,
      (r.reads fills_kept false).textOf_eq, (r.reads fills_pieces true).textOf_eq,
      ← r.clean_pieces fills_pieces true, strings_clean]

end Jsonc

end Dagayn
