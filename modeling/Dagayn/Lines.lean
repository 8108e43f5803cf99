import Mathlib

/-!
# Lines

Python's `str.splitlines`, of which the sources hold two ports: one leaves the line
ends out, one keeps them. A text is cut into lines of a body and an ending
(`breakLines`); `Proper` says which lists of lines come out of that, and on those
`breakLines` is undone by joining (`breakLines_join`), so a line can be exchanged for
another of the same shape and the others stay where they are.
-/

namespace Dagayn

/-- The characters `str.splitlines` ends a line at. -/
def isLineBreak (c : Char) : Bool :=
  c = '\n' || c = '\r' || c = '\x0b' || c = '\x0c' || c = '\x1c' || c = '\x1d' ||
    c = '\x1e' || c = '\u0085' || c = '\u2028' || c = '\u2029'

/-- A line without its ending, and the ending. -/
abbrev Line := List Char × List Char

/-- The lines of a text behind the characters `cur` of an open line. -/
def breakLines (cur : List Char) : List Char → List Line
  | [] => if cur.isEmpty then [] else [(cur, [])]
  | c :: rest =>
      if c = '\r' then
        match rest with
        | [] => [(cur, ['\r'])]
        | d :: rest' =>
            if d = '\n' then (cur, ['\r', '\n']) :: breakLines [] rest'
            else (cur, ['\r']) :: breakLines [] (d :: rest')
      else if isLineBreak c then (cur, [c]) :: breakLines [] rest
      else breakLines (cur ++ [c]) rest

def Line.text (l : Line) : List Char := l.1 ++ l.2

def join (ls : List Line) : List Char := ls.flatMap Line.text

/-- `coverage::splitlines`: the endings are left out. -/
def Coverage.splitlines (text : List Char) : List (List Char) :=
  (breakLines [] text).map Prod.fst

/-- `difflib::splitlines`: the endings are kept. -/
def Difflib.splitlines (text : List Char) : List (List Char) :=
  (breakLines [] text).map Line.text

/-! ## Small facts about one step -/

theorem isLineBreak_cr : isLineBreak '\r' = true := by decide

theorem isLineBreak_nl : isLineBreak '\n' = true := by decide

@[simp] theorem join_nil : join [] = [] := rfl

@[simp] theorem join_cons (l : Line) (ls : List Line) :
    join (l :: ls) = l.1 ++ (l.2 ++ join ls) := by
  simp [join, Line.text]

theorem breakLines_plain {c : Char} (hc : isLineBreak c = false) (cur rest : List Char) :
    breakLines cur (c :: rest) = breakLines (cur ++ [c]) rest := by
  have hcr : c ≠ '\r' := fun h => by rw [h, isLineBreak_cr] at hc; cases hc
  rw [breakLines.eq_def]
  simp [hcr, hc]

theorem breakLines_end {c : Char} (hc : isLineBreak c = true) (hcr : c ≠ '\r')
    (cur rest : List Char) :
    breakLines cur (c :: rest) = (cur, [c]) :: breakLines [] rest := by
  rw [breakLines.eq_def]
  simp [hcr, hc]

theorem breakLines_crlf (cur rest : List Char) :
    breakLines cur ('\r' :: '\n' :: rest) = (cur, ['\r', '\n']) :: breakLines [] rest := by
  rw [breakLines.eq_def]
  simp

theorem breakLines_cr {rest : List Char} (h : rest.head? ≠ some '\n') (cur : List Char) :
    breakLines cur ('\r' :: rest) = (cur, ['\r']) :: breakLines [] rest := by
  rw [breakLines.eq_def]
  cases rest with
  | nil => simp [breakLines]
  | cons d rest' =>
      have hd : d ≠ '\n' := fun hd => h (by rw [hd]; rfl)
      simp [hd]

def NoBreak (cs : List Char) : Prop := cs.all (!isLineBreak ·) = true

theorem noBreak_cons {c : Char} {cs : List Char} :
    NoBreak (c :: cs) ↔ isLineBreak c = false ∧ NoBreak cs := by
  simp [NoBreak]

theorem noBreak_append {as bs : List Char} :
    NoBreak (as ++ bs) ↔ NoBreak as ∧ NoBreak bs := by
  simp [NoBreak]

theorem NoBreak.mem {cs : List Char} (h : NoBreak cs) {c : Char} (hc : c ∈ cs) :
    isLineBreak c = false := by
  simpa using List.all_eq_true.mp h c hc

theorem breakLines_append {b : List Char} (hb : NoBreak b) (cur rest : List Char) :
    breakLines cur (b ++ rest) = breakLines (cur ++ b) rest := by
  induction b generalizing cur with
  | nil => simp
  | cons c b ih =>
      obtain ⟨hc, hb⟩ := noBreak_cons.mp hb
      rw [List.cons_append, breakLines_plain hc, ih hb]
      simp

/-! ## Joining the lines gives the text back -/

theorem join_breakLines (cur text : List Char) : join (breakLines cur text) = cur ++ text := by
  fun_induction breakLines cur text with
  | case1 cur h => simpa using h
  | case2 cur h => simp
  | case3 cur => simp
  | case4 cur rest' ih => simp [ih]
  | case5 cur d rest' hd ih => simp [ih]
  | case6 cur c rest hcr hc ih => simp [ih]
  | case7 cur c rest hcr hc ih => simp [ih]

theorem flatten_splitlines (text : List Char) : (Difflib.splitlines text).flatten = text := by
  have h := join_breakLines [] text
  rw [List.nil_append] at h
  exact h

/-! ## Which lists of lines are the lines of a text -/

/-- `\r\n`, or one line break. -/
def IsEnding (e : List Char) : Prop := e = ['\r', '\n'] ∨ ∃ c, isLineBreak c = true ∧ e = [c]

/-- Bodies hold no line break, only the last line may lack an ending (and is then not
empty), and no lone `\r` stands before a `\n`. -/
def Proper : List Line → Prop
  | [] => True
  | [l] => NoBreak l.1 ∧ (IsEnding l.2 ∨ l.2 = [] ∧ l.1 ≠ [])
  | l :: l' :: ls =>
      NoBreak l.1 ∧ IsEnding l.2 ∧ (l.2 = ['\r'] → (join (l' :: ls)).head? ≠ some '\n') ∧
        Proper (l' :: ls)

theorem Proper.tail {l : Line} {ls : List Line} (h : Proper (l :: ls)) : Proper ls := by
  cases ls with
  | nil => trivial
  | cons l' ls => exact h.2.2.2

theorem Proper.noBreak {l : Line} {ls : List Line} (h : Proper (l :: ls)) : NoBreak l.1 := by
  cases ls with
  | nil => exact h.1
  | cons l' ls => exact h.1

theorem breakLines_join {ls : List Line} (h : Proper ls) : breakLines [] (join ls) = ls := by
  induction ls with
  | nil => rfl
  | cons l ls ih =>
      have ih := ih h.tail
      have hb := h.noBreak
      obtain ⟨b, e⟩ := l
      rw [join_cons, breakLines_append hb, List.nil_append]
      -- the ending: present before another line, possibly absent at the end of the text
      have hend : IsEnding e → (e = ['\r'] → (join ls).head? ≠ some '\n') →
          breakLines b (e ++ join ls) = (b, e) :: ls := by
        rintro (rfl | ⟨c, hc, rfl⟩) hcr
        · exact (breakLines_crlf b (join ls)).trans (by rw [ih])
        · by_cases h' : c = '\r'
          · subst h'
            exact (breakLines_cr (hcr rfl) b).trans (by rw [ih])
          · exact (breakLines_end hc h' b (join ls)).trans (by rw [ih])
      cases ls with
      | nil =>
          rcases h.2 with he | ⟨he, hne⟩
          · exact hend he (by simp)
          · have he : e = [] := he
            subst he
            have : b.isEmpty = false := by simpa using hne
            simp [breakLines, this]
      | cons l' ls => exact hend h.2.1 h.2.2.1

theorem proper_cons {l : Line} {ls : List Line} (hb : NoBreak l.1) (he : IsEnding l.2)
    (hcr : l.2 = ['\r'] → (join ls).head? ≠ some '\n') (h : Proper ls) : Proper (l :: ls) := by
  cases ls with
  | nil => exact ⟨hb, .inl he⟩
  | cons l' ls => exact ⟨hb, he, hcr, h⟩

theorem proper_breakLines (cur text : List Char) (hcur : NoBreak cur) :
    Proper (breakLines cur text) := by
  fun_induction breakLines cur text with
  | case1 cur h => trivial
  | case2 cur h => exact ⟨hcur, .inr ⟨rfl, by simpa using h⟩⟩
  | case3 cur => exact ⟨hcur, .inl (.inr ⟨'\r', isLineBreak_cr, rfl⟩)⟩
  | case4 cur rest' ih =>
      exact proper_cons hcur (.inl rfl) (by simp) (ih (by rfl))
  | case5 cur d rest' hd ih =>
      refine proper_cons hcur (.inr ⟨'\r', isLineBreak_cr, rfl⟩) (fun _ => ?_) (ih (by rfl))
      rw [join_breakLines]
      simpa using hd
  | case6 cur c rest hcr hc ih =>
      refine proper_cons hcur (.inr ⟨c, hc, rfl⟩) (fun h => ?_) (ih (by rfl))
      exact absurd (List.cons.inj h).1 hcr
  | case7 cur c rest hcr hc ih =>
      have hc : isLineBreak c = false := by simpa using hc
      exact ih (noBreak_append.mpr ⟨hcur, noBreak_cons.mpr ⟨hc, by rfl⟩⟩)

theorem isEnding_ne_nil {e : List Char} (h : IsEnding e) : e ≠ [] := by
  rcases h with rfl | ⟨c, -, rfl⟩ <;> simp

theorem Proper.mem {ls : List Line} (h : Proper ls) {l : Line} (hl : l ∈ ls) :
    NoBreak l.1 ∧ (IsEnding l.2 ∨ l.2 = []) := by
  induction ls with
  | nil => cases hl
  | cons l' ls ih =>
      rcases List.mem_cons.mp hl with rfl | hl
      · refine ⟨h.noBreak, ?_⟩
        cases ls with
        | nil => exact h.2.imp_right And.left
        | cons l'' ls => exact .inl h.2.1
      · exact ih h.tail hl

theorem newline_last {ls : List Line} (h : Proper ls) {l : Line} (hl : l ∈ ls) {x y : List Char}
    (heq : l.text = x ++ '\n' :: y) : y = [] := by
  obtain ⟨hb, hend⟩ := h.mem hl
  rcases List.append_eq_append_iff.mp heq with ⟨z, -, htail⟩ | ⟨z, hx, htail⟩
  · -- in the ending
    rcases hend with (he | ⟨c, -, he⟩) | he
    · rw [he] at htail
      rcases z with _ | ⟨d, _ | ⟨d', z⟩⟩ <;> simp_all
    · rw [he] at htail
      rcases z with _ | ⟨d, z⟩ <;> simp_all
    · rw [he] at htail
      simp at htail
  · rcases z with _ | ⟨d, z⟩
    · -- right behind the body
      rcases hend with (he | ⟨c, -, he⟩) | he
      · rw [he] at htail
        simp at htail
      · rw [he] at htail
        exact (List.cons.inj htail).2
      · rw [he] at htail
        simp at htail
    · have hd : d = '\n' := (List.cons.inj htail).1.symm
      have := hb.mem (c := '\n') (by rw [hx, hd]; simp)
      rw [isLineBreak_nl] at this
      cases this

theorem head_join_ne {l : Line} (ls : List Line) (hb : NoBreak l.1) (hne : l.1 ≠ []) :
    (join (l :: ls)).head? ≠ some '\n' := by
  obtain ⟨b, e⟩ := l
  cases b with
  | nil => exact absurd rfl hne
  | cons c b =>
      rw [join_cons, List.cons_append, List.head?_cons]
      intro h
      have := (noBreak_cons.mp hb).1
      rw [Option.some.inj h, isLineBreak_nl] at this
      cases this

theorem head_join {l : Line} {ls : List Line} (h : Proper (l :: ls)) (ls' : List Line) :
    (join (l :: ls')).head? = l.text.head? := by
  have hne : l.text ≠ [] := by
    cases ls with
    | nil =>
        rcases h.2 with he | ⟨-, hb⟩
        · simp [Line.text, isEnding_ne_nil he]
        · simp [Line.text, hb]
    | cons l'' ls => simp [Line.text, isEnding_ne_nil h.2.1]
  rw [join, List.flatMap_cons, List.head?_append_of_ne_nil _ hne]

/-- A line may be exchanged for one with a body that is not empty, and with the same
ending; a line without ending may get one. -/
theorem Proper.set {ls : List Line} (h : Proper ls) {i : Nat} {l : Line} {b e : List Char}
    (hget : ls[i]? = some l) (hb : NoBreak b) (hne : b ≠ [])
    (he : e = l.2 ∨ l.2 = [] ∧ IsEnding e) : Proper (ls.set i (b, e)) := by
  induction ls generalizing i with
  | nil => exact h
  | cons l' ls ih =>
      cases ls with
      | nil =>
          cases i with
          | zero =>
              obtain rfl : l' = l := by simpa using hget
              refine ⟨hb, ?_⟩
              rcases he with rfl | ⟨-, he⟩
              · exact h.2.imp_right fun h => ⟨h.1, hne⟩
              · exact .inl he
          | succ i => simp at hget
      | cons l'' ls =>
          cases i with
          | zero =>
              obtain rfl : l' = l := by simpa using hget
              obtain ⟨-, hend, hcr, hrest⟩ := h
              rcases he with rfl | ⟨he, -⟩
              · exact ⟨hb, hend, hcr, hrest⟩
              · exact absurd he (isEnding_ne_nil hend)
          | succ i =>
              have hrest := ih h.tail (by simpa using hget)
              refine proper_cons h.noBreak h.2.1 (fun hcr => ?_) hrest
              cases i with
              | zero => exact head_join_ne _ hb hne
              | succ i =>
                  have hhead := h.2.2.1 hcr
                  rw [head_join h.tail] at hhead
                  rw [List.set_cons_succ, head_join h.tail]
                  exact hhead

/-! ## Texts of lines that end with a newline -/

theorem breakLines_newline (cur text rest : List Char) :
    breakLines cur (text ++ '\n' :: rest) =
      breakLines cur (text ++ ['\n']) ++ breakLines [] rest := by
  have hnl : isLineBreak '\n' = true := isLineBreak_nl
  have hne : ('\n' : Char) ≠ '\r' := by decide
  have hbase : ∀ cur rest, breakLines cur ('\n' :: rest) = (cur, ['\n']) :: breakLines [] rest :=
    fun cur rest => breakLines_end hnl hne cur rest
  fun_induction breakLines cur text with
  | case1 cur h => simp [hbase, breakLines]
  | case2 cur h => simp [hbase, breakLines]
  | case3 cur => simp [breakLines_crlf, breakLines]
  | case4 cur rest' ih => simpa [breakLines_crlf] using ih
  | case5 cur d rest' hd ih =>
      have h : (d :: (rest' ++ '\n' :: rest)).head? ≠ some '\n' := by simpa using hd
      have h' : (d :: (rest' ++ ['\n'])).head? ≠ some '\n' := by simpa using hd
      simp only [List.cons_append, breakLines_cr h, breakLines_cr h'] at ih ⊢
      rw [ih]
  | case6 cur c rest' hcr hc ih =>
      simp only [List.cons_append, breakLines_end hc hcr] at ih ⊢
      rw [ih]
  | case7 cur c rest' hcr hc ih =>
      have hc : isLineBreak c = false := by simpa using hc
      simpa only [List.cons_append, breakLines_plain hc] using ih

/-- What is left of a line before `\r\n`. -/
def stripCr (line : List Char) : List Char :=
  if line.getLast? = some '\r' then line.dropLast else line

/-- A newline behind the line is the only place it is broken at. -/
def Clean (line : List Char) : Prop := NoBreak (stripCr line)

theorem stripCr_of_noBreak {line : List Char} (h : NoBreak line) : stripCr line = line := by
  unfold stripCr
  rw [if_neg]
  intro hlast
  have := h.mem (List.mem_of_getLast? hlast)
  rw [isLineBreak_cr] at this
  cases this

theorem clean_of_noBreak {line : List Char} (h : NoBreak line) : Clean line := by
  unfold Clean
  rw [stripCr_of_noBreak h]
  exact h

theorem stripCr_concat (line : List Char) : stripCr (line ++ ['\r']) = line := by
  unfold stripCr
  rw [if_pos List.getLast?_concat, List.dropLast_concat]

theorem stripCr_append {pre line : List Char} (h : pre.getLast? ≠ some '\r') :
    stripCr (pre ++ line) = pre ++ stripCr line := by
  unfold stripCr
  cases hl : line.getLast? with
  | none =>
      obtain rfl : line = [] := List.getLast?_eq_none_iff.mp hl
      simp [h]
  | some c =>
      have hne : line ≠ [] := by rintro rfl; cases hl
      have happ : (pre ++ line).getLast? = some c := by rw [List.getLast?_append, hl]; rfl
      rw [happ]
      split
      · exact List.dropLast_append_of_ne_nil hne
      · rfl

theorem clean_append {pre line : List Char} (h : NoBreak pre) :
    Clean (pre ++ line) ↔ Clean line := by
  unfold Clean
  rw [stripCr_append, noBreak_append]
  · exact and_iff_right h
  · intro hlast
    have := h.mem (List.mem_of_getLast? hlast)
    rw [isLineBreak_cr] at this
    cases this

def piecesOf (line : List Char) : List (List Char) := Coverage.splitlines (line ++ ['\n'])

theorem splitlines_lines (ls : List (List Char)) :
    Coverage.splitlines (ls.flatMap (· ++ ['\n'])) = ls.flatMap piecesOf := by
  induction ls with
  | nil => rfl
  | cons l ls ih =>
      unfold Coverage.splitlines at ih ⊢
      rw [List.flatMap_cons, List.append_assoc, List.singleton_append, breakLines_newline,
        List.map_append, ih]
      rfl

theorem piecesOf_clean {line : List Char} (h : Clean line) : piecesOf line = [stripCr line] := by
  have hproper : Proper [(stripCr line,
      if line.getLast? = some '\r' then ['\r', '\n'] else ['\n'])] := by
    refine ⟨h, .inl ?_⟩
    split
    · exact .inl rfl
    · exact .inr ⟨'\n', isLineBreak_nl, rfl⟩
  have hjoin : join [(stripCr line,
      if line.getLast? = some '\r' then ['\r', '\n'] else ['\n'])] = line ++ ['\n'] := by
    unfold stripCr
    split
    · rename_i hlast
      have hne : line ≠ [] := by rintro rfl; cases hlast
      have hget : line.getLast hne = '\r' :=
        Option.some.inj ((List.getLast?_eq_some_getLast hne).symm.trans hlast)
      have hsplit := List.dropLast_append_getLast hne
      rw [hget] at hsplit
      conv_rhs => rw [← hsplit]
      simp
    · simp
  unfold piecesOf Coverage.splitlines
  rw [← hjoin, breakLines_join hproper]
  rfl

theorem piecesOf_ne_nil (line : List Char) : piecesOf line ≠ [] := by
  intro h
  have hnil : breakLines [] (line ++ ['\n']) = [] := List.map_eq_nil_iff.mp h
  have hjoin := join_breakLines [] (line ++ ['\n'])
  rw [hnil] at hjoin
  simp at hjoin

theorem clean_of_piecesOf {line : List Char} (h : (piecesOf line).length = 1) : Clean line := by
  have hproper := proper_breakLines [] (line ++ ['\n']) (by rfl)
  have hjoin := join_breakLines [] (line ++ ['\n'])
  have hlen : (breakLines [] (line ++ ['\n'])).length = 1 := by
    simpa [piecesOf, Coverage.splitlines] using h
  obtain ⟨l, hl⟩ := List.length_eq_one_iff.mp hlen
  rw [hl] at hproper hjoin
  have hjoin : l.1 ++ l.2 = line ++ ['\n'] := by simpa using hjoin
  obtain ⟨hb, (hcrlf | ⟨c, hc, he⟩) | ⟨he, -⟩⟩ := hproper
  · -- `\r\n`: the body is the line without its `\r`
    have hline : line = l.1 ++ ['\r'] := by
      rw [hcrlf, show ['\r', '\n'] = ['\r'] ++ ['\n'] from rfl, ← List.append_assoc] at hjoin
      exact (List.append_inj_left' hjoin rfl).symm
    unfold Clean
    rw [hline, stripCr_concat]
    exact hb
  · rw [he] at hjoin
    have hline : l.1 = line := List.append_inj_left' hjoin rfl
    exact clean_of_noBreak (hline ▸ hb)
  · -- without an ending the body would hold the newline
    rw [he, List.append_nil] at hjoin
    have hnl := hb.mem (c := '\n') (by rw [hjoin]; simp)
    rw [isLineBreak_nl] at hnl
    cases hnl

theorem length_splitlines_iff (ls : List (List Char)) :
    (Coverage.splitlines (ls.flatMap (· ++ ['\n']))).length = ls.length ↔ ∀ l ∈ ls, Clean l := by
  rw [splitlines_lines]
  have hpos : ∀ l, 1 ≤ (piecesOf l).length := fun l =>
    List.length_pos_iff.mpr (piecesOf_ne_nil l)
  have hge : ∀ ls : List (List Char), ls.length ≤ (ls.flatMap piecesOf).length := by
    intro ls
    induction ls with
    | nil => simp
    | cons l ls ih =>
        rw [List.flatMap_cons, List.length_append, List.length_cons]
        have := hpos l
        omega
  induction ls with
  | nil => simp
  | cons l ls ih =>
      rw [List.flatMap_cons, List.length_append, List.length_cons, List.forall_mem_cons]
      have hl := hpos l
      have hls := hge ls
      constructor
      · intro h
        exact ⟨clean_of_piecesOf (by omega), ih.mp (by omega)⟩
      · rintro ⟨hc, h⟩
        rw [piecesOf_clean hc, ih.mpr h, List.length_singleton]
        omega

end Dagayn
