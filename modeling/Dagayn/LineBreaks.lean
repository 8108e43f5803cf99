import Dagayn.CodeLayout
import Dagayn.ParamShape
import Dagayn.ScipIndex

/-!
# Lines and their breaks

`lines` leaves the line breaks out and `split_inclusive` keeps them. Both give the same lines up to
white space, and a character of a text stands on the line that as many line breaks are in front of.
-/

namespace Dagayn

/-- `split_inclusive('\n')`. -/
def splitInclusive : List Char → List (List Char)
  | [] => []
  | c :: rest =>
      if c = '\n' then [c] :: splitInclusive rest
      else
        match splitInclusive rest with
        | [] => [[c]]
        | line :: lines => (c :: line) :: lines

/-! ## Lines with and without their breaks -/

theorem splitInclusive_append_newline (rest : List Char) {line : List Char} (h : '\n' ∉ line) :
    splitInclusive (line ++ '\n' :: rest) = (line ++ ['\n']) :: splitInclusive rest := by
  induction line with
  | nil => rfl
  | cons c line ih =>
      have hc : c ≠ '\n' := fun heq => h (heq ▸ List.mem_cons_self)
      rw [List.cons_append, splitInclusive, if_neg hc,
        ih fun hmem => h (List.mem_cons_of_mem _ hmem)]
      rfl

theorem splitInclusive_of_notMem {line : List Char} (h : '\n' ∉ line) :
    splitInclusive line = if line = [] then [] else [line] := by
  induction line with
  | nil => rfl
  | cons c line ih =>
      have hc : c ≠ '\n' := fun heq => h (heq ▸ List.mem_cons_self)
      rw [splitInclusive, if_neg hc, ih fun hmem => h (List.mem_cons_of_mem _ hmem)]
      cases line <;> rfl

theorem trim_append_white {text ending : List Char} (h : ∀ c ∈ ending, isWhitespace c = true) :
    trim (text ++ ending) = trim text := by
  have hreverse : ∀ c ∈ ending.reverse, isWhitespace c = true := fun c hc =>
    h c (List.mem_reverse.mp hc)
  have hdrop : ending.dropWhile isWhitespace = [] := List.dropWhile_eq_nil_iff.mpr h
  rw [trim, trim, List.dropWhile_append]
  split
  · rename_i hnil
    rw [List.isEmpty_iff.mp hnil, hdrop]
  · rw [List.rdropWhile, List.rdropWhile, List.reverse_append,
      List.dropWhile_append_of_pos hreverse]

theorem map_trim_lines (text : List Char) :
    (Scip.lines text).map trim = (splitInclusive text).map trim := by
  induction hn : text.length using Nat.strong_induction_on generalizing text with
  | _ n ih =>
      by_cases hmem : '\n' ∈ text
      · obtain ⟨line, rest, rfl, hline⟩ := List.eq_append_cons_of_mem hmem
        obtain ⟨first, ending, heq, hending, hlines⟩ :=
          NormalizeCode.lines_append_newline rest hline
        have hwhite : ∀ c ∈ ending ++ ['\n'], isWhitespace c = true := by
          rcases hending with rfl | rfl <;> exact forall_mem_of_all (by decide)
        have hfirst : trim (line ++ ['\n']) = trim first := by
          rw [heq, List.append_assoc, trim_append_white hwhite]
        have hrest := ih rest.length (by rw [← hn]; simp; omega) rest rfl
        rw [hlines, splitInclusive_append_newline rest hline, List.map_cons, List.map_cons, hrest,
          hfirst]
      · rw [NormalizeCode.lines_of_not_mem hmem, splitInclusive_of_notMem hmem]

theorem flatten_splitInclusive (text : List Char) : (splitInclusive text).flatten = text := by
  induction text with
  | nil => rfl
  | cons c rest ih =>
      rw [splitInclusive]
      split
      · rw [List.flatten_cons, ih]
        rfl
      · cases hlines : splitInclusive rest with
        | nil =>
            rw [hlines] at ih
            rw [← ih]
            rfl
        | cons line lines =>
            rw [hlines] at ih
            rw [← ih]
            rfl

/-- Lines that have a line break at their ends, the last one perhaps none. -/
def Broken : List (List Char) → Prop
  | [] => True
  | line :: rest => (∃ body, '\n' ∉ body ∧ (line = body ++ ['\n'] ∨ line = body ∧ rest = [])) ∧
      Broken rest

theorem broken_splitInclusive (text : List Char) : Broken (splitInclusive text) := by
  induction text with
  | nil => trivial
  | cons c rest ih =>
      rw [splitInclusive]
      split
      · rename_i hc
        exact ⟨⟨[], List.not_mem_nil, .inl (by rw [hc]; rfl)⟩, ih⟩
      · rename_i hc
        cases hlines : splitInclusive rest with
        | nil => exact ⟨⟨[c], by simpa using Ne.symm hc, .inr ⟨rfl, rfl⟩⟩, trivial⟩
        | cons line lines =>
            rw [hlines] at ih
            obtain ⟨⟨body, hbody, hline⟩, hrest⟩ := ih
            have hnot : '\n' ∉ c :: body := by
              rw [List.mem_cons, not_or]
              exact ⟨Ne.symm hc, hbody⟩
            refine ⟨⟨c :: body, hnot, ?_⟩, hrest⟩
            rcases hline with rfl | ⟨rfl, hnil⟩
            · exact .inl rfl
            · exact .inr ⟨rfl, hnil⟩

theorem line_of_offset {lines : List (List Char)} (hlines : Broken lines)
    {before after : List Char} {c : Char}
    (h : lines.flatten = before ++ c :: after) :
    ∃ line, lines[before.count '\n']? = some line ∧ c ∈ line := by
  induction lines generalizing before with
  | nil => simp at h
  | cons line rest ih =>
      obtain ⟨⟨body, hbody, hline⟩, hrest⟩ := hlines
      rw [List.flatten_cons] at h
      -- behind the first line, the character is in the rest
      have hlater : ∀ before', before = line ++ before' → rest.flatten = before' ++ c :: after →
          ∃ found, (line :: rest)[before.count '\n']? = some found ∧ c ∈ found := by
        intro before' hbefore hflat
        rcases hline with rfl | ⟨-, rfl⟩
        · obtain ⟨found, hfound, hmem⟩ := ih hrest hflat
          have hcount : before.count '\n' = before'.count '\n' + 1 := by
            rw [hbefore, List.count_append, List.count_append, List.count_eq_zero_of_not_mem hbody]
            simp [Nat.add_comm]
          exact ⟨found, by rw [hcount, List.getElem?_cons_succ, hfound], hmem⟩
        · simp at hflat
      rcases List.append_eq_append_iff.mp h with ⟨before', hbefore, hflat⟩ | ⟨behind, heq, hflat⟩
      · exact hlater before' hbefore hflat
      · cases behind with
        | nil =>
            rw [List.append_nil] at heq
            exact hlater [] (by rw [heq, List.append_nil]) hflat.symm
        | cons d behind =>
            obtain ⟨rfl, -⟩ := List.cons.inj hflat
            have hnot : '\n' ∉ before := by
              rcases hline with hline | ⟨hline, -⟩
              · intro hmem
                have hsplit : before ++ c :: behind = body ++ ['\n'] := heq.symm.trans hline
                rcases List.append_eq_append_iff.mp hsplit with ⟨x, hx, -⟩ | ⟨x, hx, hx'⟩
                · exact hbody (hx ▸ List.mem_append_left _ hmem)
                · cases x with
                  | nil => exact hbody (by rw [List.append_nil] at hx; exact hx ▸ hmem)
                  | cons e x =>
                      have hlength := congrArg List.length hx'
                      simp at hlength
              · exact fun hmem => hbody (hline ▸ heq ▸ List.mem_append_left _ hmem)
            refine ⟨line, ?_, by rw [heq]; simp⟩
            rw [List.count_eq_zero_of_not_mem hnot, List.getElem?_cons_zero]

theorem offset_of_line {lines : List (List Char)} (hlines : Broken lines) {i : Nat}
    {line : List Char} (hline : lines[i]? = some line) {c : Char} (hc : c ≠ '\n')
    (hmem : c ∈ line) :
    ∃ before after, lines.flatten = before ++ c :: after ∧ before.count '\n' = i := by
  induction lines generalizing i with
  | nil => cases hline
  | cons first rest ih =>
      obtain ⟨⟨body, hbody, hfirst⟩, hrest⟩ := hlines
      cases i with
      | zero =>
          obtain rfl : first = line := Option.some.inj hline
          have hin : c ∈ body := by
            rcases hfirst with rfl | ⟨rfl, -⟩
            · simpa [hc] using hmem
            · exact hmem
          obtain ⟨before, after, rfl⟩ := List.append_of_mem hin
          have hcount : before.count '\n' = 0 :=
            List.count_eq_zero_of_not_mem fun h => hbody (List.mem_append_left _ h)
          rcases hfirst with rfl | ⟨rfl, -⟩
          · exact ⟨before, after ++ '\n' :: rest.flatten, by simp, hcount⟩
          · exact ⟨before, after ++ rest.flatten, by simp, hcount⟩
      | succ i =>
          obtain ⟨before, after, hflat, hcount⟩ := ih hrest hline
          rcases hfirst with rfl | ⟨-, rfl⟩
          · refine ⟨body ++ '\n' :: before, after, by simp [hflat], ?_⟩
            rw [List.count_append, List.count_eq_zero_of_not_mem hbody, List.count_cons_self,
              hcount,
              Nat.zero_add]
          · cases hline

/-! ## Matches -/

theorem mem_matchIndices {name : List Char} {skip : Nat} {front text before behind : List Char}
    (h : (before, behind) ∈ Scip.matchIndices name skip front text) :
    ∃ pre, before = front ++ pre ∧ text = pre ++ name ++ behind := by
  induction text generalizing skip front with
  | nil =>
      cases skip <;> cases h
  | cons c rest ih =>
      have hlater : ∀ skip, (before, behind) ∈ Scip.matchIndices name skip (front ++ [c]) rest →
          ∃ pre, before = front ++ pre ∧ c :: rest = pre ++ name ++ behind := by
        intro skip hmem
        obtain ⟨pre, hbefore, hrest⟩ := ih hmem
        exact ⟨c :: pre, by rw [hbefore, List.append_assoc]; rfl, by rw [hrest]; rfl⟩
      cases skip with
      | succ skip => exact hlater skip h
      | zero =>
          rw [Scip.matchIndices] at h
          split at h
          · rename_i hprefix
            rcases List.mem_cons.mp h with heq | hmem
            · obtain ⟨rfl, rfl⟩ := Prod.mk.inj heq
              obtain ⟨rest', hrest'⟩ := List.isPrefixOf_iff_prefix.mp hprefix
              refine ⟨[], (List.append_nil _).symm, ?_⟩
              rw [← hrest', List.drop_left]
              rfl
            · exact hlater _ hmem
          · exact hlater 0 h

end Dagayn
