import Dagayn.CfgTest
import Mathlib

/-!
# CJK runs in the index and in a query

Without the dictionary, `segment_japanese_fts_index` has the pairs of neighbouring characters of
each CJK run of a text, and `segment_japanese_fts_query` pairs that cover a run. `run_found_iff`
says which runs of a document's characters have all their query tokens in its index.
-/

namespace Dagayn

namespace JapaneseFts

/-! ## Chunks -/

inductive ChunkKind where
  | ascii
  | cjk
  | other
  deriving DecidableEq

def isCjkChar (ch : Char) : Bool :=
  let n := ch.toNat
  (0x3040 ≤ n && n ≤ 0x30FF) || (0x3400 ≤ n && n ≤ 0x9FFF) || (0xF900 ≤ n && n ≤ 0xFAFF) ||
    (0xAC00 ≤ n && n ≤ 0xD7AF)

def chunkKindFor (ch : Char) : ChunkKind :=
  if ch.isAlphanum || ch = '_' then .ascii else if isCjkChar ch then .cjk else .other

def pairs : List Char → List (List Char)
  | a :: b :: rest => [a, b] :: pairs (b :: rest)
  | _ => []

/-- Pairs one behind the other, with what is left over. -/
def coveringPairs : List Char → List (List Char)
  | a :: b :: rest => [a, b] :: coveringPairs rest
  | [a] => [[a]]
  | [] => []

/-- `flush_chunk`, by the tokens that it adds. -/
def flushChunk (covering : Bool) (kind : ChunkKind) (chunk : List Char) : List (List Char) :=
  if chunk = [] then []
  else
    match kind with
    | .ascii => [chunk]
    | .cjk =>
        if chunk.length ≤ 2 then [chunk]
        else if covering then coveringPairs chunk
        else pairs chunk
    | .other => []

/-- The loop of `mixed_bigram_tokens` and of `covering_query_tokens`. -/
def scanChunks (covering : Bool) (chunk : List Char) (chunkKind : ChunkKind) :
    List Char → List (List Char)
  | [] => flushChunk covering chunkKind chunk
  | ch :: rest =>
      let nextKind := chunkKindFor ch
      if nextKind = .other then
        flushChunk covering chunkKind chunk ++ scanChunks covering [] .other rest
      else if chunkKind ≠ .other ∧ nextKind ≠ chunkKind then
        flushChunk covering chunkKind chunk ++ scanChunks covering [ch] nextKind rest
      else scanChunks covering (chunk ++ [ch]) nextKind rest

def mixedBigramTokens (text : List Char) : List (List Char) := scanChunks false [] .other text

def queryStopBases : List (List Char) :=
  ["する".toList, "なる".toList, "いる".toList, "ある".toList, "できる".toList, "やる".toList,
    "くる".toList, "いく".toList, "ます".toList, "です".toList, "だ".toList, "た".toList,
    "て".toList, "よう".toList, "こと".toList, "もの".toList, "ため".toList, "さん".toList]

def coveringQueryTokens (text : List Char) : List (List Char) :=
  (scanChunks true [] .other text).filter (· ∉ queryStopBases)

/-! ## The two segmentations -/

def containsJapanese (text : List Char) : Bool := text.any isCjkChar

/-- `push`: no empty token, and none twice. -/
def push (tokens : List (List Char)) (token : List Char) : List (List Char) :=
  if token = [] ∨ token ∈ tokens then tokens else tokens ++ [token]

section Segment

/- `morph_tokens`, for a query or not; none without a dictionary. -/
variable (morphTokens : List Char → Bool → Option (List (List Char)))

def segmentJapaneseFtsIndex (text : List Char) : List Char :=
  if text = [] ∨ containsJapanese text = false then text
  else
    let morphemes := (morphTokens text false).getD []
    List.intercalate [' '] ((morphemes ++ mixedBigramTokens text).foldl push [])

def segmentJapaneseFtsQuery (text : List Char) : List Char :=
  if text = [] ∨ containsJapanese text = false then text
  else
    match (morphTokens text true).filter (· ≠ []) with
    | some morphemes => List.intercalate [' '] morphemes
    | none => List.intercalate [' '] (coveringQueryTokens text)

end Segment

def noMorphTokens : List Char → Bool → Option (List (List Char)) := fun _ _ => none

def splitSegments (query : List Char) : List (List Char) :=
  (query.splitOnP fun ch => ch = '.' || ch = '/' || ch = ':' || isWhitespace ch).filter (· ≠ [])

def indexTokens (text : List Char) : List (List Char) :=
  (text.splitOnP isWhitespace).filter (· ≠ [])

/-! ## Runs -/

/-- A run of characters of one kind, as long as it goes. -/
def IsRun (kind : ChunkKind) (run text : List Char) : Prop :=
  run ≠ [] ∧ (∀ c ∈ run, chunkKindFor c = kind) ∧ ∃ front back, text = front ++ (run ++ back) ∧
    (∀ c ∈ front.getLast?, chunkKindFor c ≠ kind) ∧ ∀ c ∈ back.head?, chunkKindFor c ≠ kind

/-- No run of a kind goes over the place between two texts. -/
def Apart (kind : ChunkKind) (text text' : List Char) : Prop :=
  ∀ c ∈ text.getLast?, ∀ d ∈ text'.head?, chunkKindFor c = kind → chunkKindFor d ≠ kind

theorem isRun_append {kind : ChunkKind} {run text text' : List Char} (h : Apart kind text text') :
    IsRun kind run (text ++ text') ↔ IsRun kind run text ∨ IsRun kind run text' := by
  constructor
  · rintro ⟨hne, hkind, front, back, heq, hfront, hback⟩
    rcases List.append_eq_append_iff.mp heq with ⟨mid, rfl, hrest⟩ | ⟨mid, rfl, hrest⟩
    · exact .inr ⟨hne, hkind, mid, back, hrest,
        fun c hc => hfront c (List.mem_getLast?_append_of_mem_getLast? hc), hback⟩
    · rcases List.append_eq_append_iff.mp hrest with ⟨rest, rfl, rfl⟩ | ⟨rest, rfl, rfl⟩
      · exact .inl ⟨hne, hkind, front, rest, rfl, hfront,
          fun c hc => hback c (List.mem_head?_append_of_mem_head? hc)⟩
      · -- the run would go over the place between the texts
        cases hmid : mid.getLast? with
        | none =>
            obtain rfl := List.getLast?_eq_none_iff.mp hmid
            exact .inr ⟨hne, hkind, [], back, rfl, nofun, hback⟩
        | some c =>
            cases hrest : rest.head? with
            | none =>
                obtain rfl := List.head?_eq_none_iff.mp hrest
                rw [List.append_nil] at hne hkind ⊢
                exact .inl ⟨hne, hkind, front, [], by rw [List.append_nil], hfront, nofun⟩
            | some d =>
                have happart := h c (List.mem_getLast?_append_of_mem_getLast? hmid) d
                  (List.mem_head?_append_of_mem_head? hrest)
                have hc := hkind c (List.mem_append_left _ (List.mem_of_getLast? hmid))
                have hd := hkind d (List.mem_append_right _ (List.mem_of_mem_head? hrest))
                exact absurd hd (happart hc)
  · rintro (⟨hne, hkind, front, back, rfl, hfront, hback⟩ |
      ⟨hne, hkind, front, back, rfl, hfront, hback⟩)
    · refine ⟨hne, hkind, front, back ++ text', by simp only [List.append_assoc], hfront, ?_⟩
      intro d hd
      cases back with
      | nil =>
          have hlast := List.getLast?_eq_some_getLast hne
          refine h _ ?_ d hd (hkind _ (List.getLast_mem hne))
          rw [List.append_nil]
          exact List.mem_getLast?_append_of_mem_getLast? hlast
      | cons b back => exact hback d hd
    · refine ⟨hne, hkind, text ++ front, back, by rw [List.append_assoc], ?_, hback⟩
      intro c hc
      cases hlast : front.getLast? with
      | some d =>
          rw [List.getLast?_append, hlast, Option.some_or, ← hlast] at hc
          exact hfront c hc
      | none =>
          obtain rfl := List.getLast?_eq_none_iff.mp hlast
          rw [List.append_nil] at hc
          obtain ⟨d, rest, rfl⟩ := List.exists_cons_of_ne_nil hne
          exact fun hsame => h c hc d rfl hsame (hkind d List.mem_cons_self)

theorem isRun_chunk {kind kind' : ChunkKind} {chunk run : List Char} (hne : chunk ≠ [])
    (h : ∀ c ∈ chunk, chunkKindFor c = kind) :
    IsRun kind' run chunk ↔ kind' = kind ∧ run = chunk := by
  constructor
  · rintro ⟨hrun, hkind, front, back, rfl, hfront, hback⟩
    obtain ⟨c, rest, rfl⟩ := List.exists_cons_of_ne_nil hrun
    have hsame : kind' = kind :=
      (hkind c List.mem_cons_self).symm.trans (h c (by simp))
    subst hsame
    cases hlast : front.getLast? with
    | some d =>
        have hd := h d (List.mem_append_left _ (List.mem_of_getLast? hlast))
        exact absurd hd (hfront d hlast)
    | none =>
        obtain rfl := List.getLast?_eq_none_iff.mp hlast
        cases back with
        | nil => exact ⟨rfl, by simp⟩
        | cons d back => exact absurd (h d (by simp)) (hback d rfl)
  · rintro ⟨rfl, rfl⟩
    exact ⟨hne, h, [], [], by simp, nofun, nofun⟩

theorem isRun_cons_other {kind : ChunkKind} (hkind : kind ≠ .other) {ch : Char}
    (hch : chunkKindFor ch = .other) (run rest : List Char) :
    IsRun kind run (ch :: rest) ↔ IsRun kind run rest := by
  have happart : Apart kind [ch] rest := fun c hc d _ hsame => by
    obtain rfl := Option.some.inj hc
    exact absurd (hsame.symm.trans hch) hkind
  have hnot : ¬ IsRun kind run [ch] := fun h => hkind ((isRun_chunk (List.cons_ne_nil ch [])
    (List.forall_mem_singleton.mpr hch)).mp h).1
  rw [← List.singleton_append, isRun_append happart]
  exact or_iff_right hnot

theorem mem_flushChunk (covering : Bool) (token : List Char) {chunk : List Char}
    {kind : ChunkKind} (h : ∀ c ∈ chunk, chunkKindFor c = kind)
    (hother : chunk ≠ [] → kind ≠ .other) :
    token ∈ flushChunk covering kind chunk ↔ ∃ kind' run, kind' ≠ .other ∧
      IsRun kind' run chunk ∧ token ∈ flushChunk covering kind' run := by
  constructor
  · intro htoken
    have hne : chunk ≠ [] := fun hnil => by
      rw [flushChunk.eq_def, if_pos hnil] at htoken
      cases htoken
    exact ⟨kind, chunk, hother hne, (isRun_chunk hne h).mpr ⟨rfl, rfl⟩, htoken⟩
  · rintro ⟨kind', run, -, hrun, htoken⟩
    have hne : chunk ≠ [] := by
      rintro rfl
      obtain ⟨hrun, -, front, back, heq, -⟩ := hrun
      simp [hrun] at heq
    obtain ⟨rfl, rfl⟩ := (isRun_chunk hne h).mp hrun
    exact htoken

theorem mem_scanChunks (covering : Bool) (token text : List Char) : ∀ (chunk : List Char)
    (kind : ChunkKind), (∀ c ∈ chunk, chunkKindFor c = kind) → (chunk ≠ [] → kind ≠ .other) →
      (token ∈ scanChunks covering chunk kind text ↔ ∃ kind' run, kind' ≠ .other ∧
        IsRun kind' run (chunk ++ text) ∧ token ∈ flushChunk covering kind' run) := by
  induction text with
  | nil =>
      intro chunk kind hchunk hother
      rw [scanChunks, List.append_nil]
      exact mem_flushChunk covering token hchunk hother
  | cons ch rest ih =>
      intro chunk kind hchunk hother
      -- where the chunk ends in front of the character, its runs and those of the rest are apart
      have hsplit : ∀ tail : List Char, (∀ kind', kind' ≠ .other →
          Apart kind' chunk (ch :: rest)) → (∀ kind' run, kind' ≠ .other →
          (IsRun kind' run (ch :: rest) ↔ IsRun kind' run tail)) →
          ((token ∈ flushChunk covering kind chunk ∨ ∃ kind' run, kind' ≠ .other ∧
            IsRun kind' run tail ∧ token ∈ flushChunk covering kind' run) ↔
          ∃ kind' run, kind' ≠ .other ∧ IsRun kind' run (chunk ++ ch :: rest) ∧
            token ∈ flushChunk covering kind' run) := by
        intro tail happart htail
        rw [mem_flushChunk covering token hchunk hother]
        constructor
        · rintro (⟨kind', run, hkind, hrun, htoken⟩ | ⟨kind', run, hkind, hrun, htoken⟩)
          · exact ⟨kind', run, hkind, (isRun_append (happart kind' hkind)).mpr (.inl hrun), htoken⟩
          · exact ⟨kind', run, hkind, (isRun_append (happart kind' hkind)).mpr
              (.inr ((htail kind' run hkind).mpr hrun)), htoken⟩
        · rintro ⟨kind', run, hkind, hrun, htoken⟩
          rcases (isRun_append (happart kind' hkind)).mp hrun with hrun | hrun
          · exact .inl ⟨kind', run, hkind, hrun, htoken⟩
          · exact .inr ⟨kind', run, hkind, (htail kind' run hkind).mp hrun, htoken⟩
      rw [scanChunks]
      split
      · rename_i hch
        rw [List.mem_append, ih [] .other nofun fun hne => absurd rfl hne]
        refine hsplit rest (fun kind' hkind c hc d hd _ hsame => ?_)
          fun kind' run hkind => isRun_cons_other hkind hch run rest
        obtain rfl := Option.some.inj hd
        exact hkind (hsame.symm.trans hch)
      · rename_i hch
        have hone : ∀ c ∈ [ch], chunkKindFor c = chunkKindFor ch :=
          List.forall_mem_singleton.mpr rfl
        split
        · rename_i hnext
          rw [List.mem_append, ih [ch] (chunkKindFor ch) hone fun _ => hch]
          refine hsplit (ch :: rest) (fun kind' hkind c hc d hd hc' hsame => ?_)
            fun _ _ _ => Iff.rfl
          obtain rfl := Option.some.inj hd
          have hkind := hchunk c (List.mem_of_getLast? hc)
          exact hnext.2 (hsame.trans (hc'.symm.trans hkind))
        · rename_i hsame
          have hall : ∀ c ∈ chunk ++ [ch], chunkKindFor c = chunkKindFor ch := by
            refine List.forall_mem_append.mpr ⟨fun c hc => ?_, hone⟩
            have hne := hother (List.ne_nil_of_mem hc)
            rw [hchunk c hc]
            by_contra hdiff
            exact hsame ⟨hne, Ne.symm hdiff⟩
          rw [ih (chunk ++ [ch]) (chunkKindFor ch) hall fun _ => hch, List.append_assoc]
          rfl

/-! ## Pairs -/

theorem mem_pairs {text : List Char} {a b : Char} (h : [a, b] <:+: text) : [a, b] ∈ pairs text := by
  induction text with
  | nil => exact absurd (List.infix_nil.mp h) (List.cons_ne_nil a [b])
  | cons c rest ih =>
      rcases List.infix_cons_iff.mp h with hprefix | hinfix
      · obtain ⟨tail, htail⟩ := hprefix
        obtain ⟨rfl, rfl⟩ := List.cons.inj htail
        exact List.mem_cons_self
      · cases rest with
        | nil => exact absurd (List.infix_nil.mp hinfix) (List.cons_ne_nil a [b])
        | cons d rest => exact List.mem_cons_of_mem _ (ih hinfix)

theorem length_of_mem_pairs {text token : List Char} (h : token ∈ pairs text) :
    token.length = 2 := by
  fun_induction pairs text with
  | case1 a b rest ih =>
      rcases List.mem_cons.mp h with rfl | h
      · rfl
      · exact ih h
  | case2 => cases h

/-- A covering token is a pair of neighbours, or the last character where one is left over. -/
theorem mem_coveringPairs {text token : List Char} (h : token ∈ coveringPairs text) :
    (∃ a b, token = [a, b] ∧ token <:+: text) ∨
      text.length % 2 = 1 ∧ ∃ c ∈ text.getLast?, token = [c] := by
  fun_induction coveringPairs text with
  | case1 a b rest ih =>
      rcases List.mem_cons.mp h with rfl | h
      · exact .inl ⟨a, b, rfl, [], rest, rfl⟩
      · rcases ih h with ⟨a', b', htoken, hinfix⟩ | ⟨hodd, c, hc, htoken⟩
        · exact .inl ⟨a', b', htoken, hinfix.trans ⟨[a, b], [], by simp⟩⟩
        · have hlast : c ∈ ([a, b] ++ rest).getLast? :=
            List.mem_getLast?_append_of_mem_getLast? hc
          refine .inr ⟨?_, c, hlast, htoken⟩
          rw [List.length_cons, List.length_cons]
          omega
  | case2 a => exact .inr ⟨rfl, a, rfl, List.mem_singleton.mp h⟩
  | case3 => cases h

theorem last_mem_coveringPairs {text : List Char} (hodd : text.length % 2 = 1) {c : Char}
    (hc : c ∈ text.getLast?) : [c] ∈ coveringPairs text := by
  fun_induction coveringPairs text with
  | case1 a b rest ih =>
      rw [List.length_cons, List.length_cons] at hodd
      refine List.mem_cons_of_mem _ (ih (by omega) ?_)
      cases rest with
      | nil => simp at hodd
      | cons d rest => exact hc
  | case2 a =>
      obtain rfl := Option.some.inj hc
      exact List.mem_singleton_self _
  | case3 => cases hc

theorem infix_of_mem_pairs {text token : List Char} (h : token ∈ pairs text) :
    token <:+: text := by
  fun_induction pairs text with
  | case1 a b rest ih =>
      rcases List.mem_cons.mp h with rfl | h
      · exact ⟨[], rest, rfl⟩
      · exact (ih h).trans (List.suffix_cons a _).isInfix
  | case2 => cases h

/-! ## The tokens of a text -/

theorem part_of_mem_flushChunk {covering : Bool} {kind : ChunkKind} {chunk token : List Char}
    (h : token ∈ flushChunk covering kind chunk) : token ≠ [] ∧ ∀ c ∈ token, c ∈ chunk := by
  rw [flushChunk.eq_def] at h
  split at h
  · cases h
  · rename_i hne
    have hwhole : ∀ {l : List (List Char)}, l = [chunk] → token ∈ l →
        token ≠ [] ∧ ∀ c ∈ token, c ∈ chunk := by
      rintro _ rfl hmem
      obtain rfl := List.mem_singleton.mp hmem
      exact ⟨hne, fun _ => id⟩
    split at h
    · exact hwhole rfl h
    · split at h
      · exact hwhole rfl h
      · split at h
        · rcases mem_coveringPairs h with ⟨a, b, rfl, hinfix⟩ | ⟨-, c, hc, rfl⟩
          · exact ⟨List.cons_ne_nil _ _, fun _ hmem => hinfix.subset hmem⟩
          · exact ⟨List.cons_ne_nil _ _,
              List.forall_mem_singleton.mpr (List.mem_of_getLast? hc)⟩
        · have hlength := length_of_mem_pairs h
          refine ⟨fun hnil => ?_, fun _ hmem => (infix_of_mem_pairs h).subset hmem⟩
          rw [hnil] at hlength
          cases hlength
    · cases h

theorem separator_kind {c : Char}
    (h : (c = '.' || c = '/' || c = ':' || isWhitespace c) = true) : chunkKindFor c = .other := by
  simp only [Bool.or_eq_true, decide_eq_true_eq] at h
  rcases h with ((rfl | rfl) | rfl) | hwhite
  · decide
  · decide
  · decide
  · have hword : RustCode.isWordChar c = false := by
      by_contra hword
      rw [RustModules.isWhitespace_of_isWordChar (by simpa using hword)] at hwhite
      cases hwhite
    have hcjk : isCjkChar c = false := by
      simp only [isWhitespace, Bool.or_eq_true, Bool.and_eq_true, decide_eq_true_eq] at hwhite
      simp only [isCjkChar, Bool.or_eq_false_iff, Bool.and_eq_false_iff, decide_eq_false_iff_not]
      omega
    rw [RustCode.isWordChar, Bool.or_eq_false_iff] at hword
    rw [chunkKindFor, hword.1, if_neg (by simpa using hword.2), hcjk, if_neg (by decide)]

theorem token_spec {covering : Bool} {text token : List Char}
    (h : token ∈ scanChunks covering [] .other text) :
    token ≠ [] ∧ ∀ c ∈ token, (c = '.' || c = '/' || c = ':' || isWhitespace c) = false := by
  obtain ⟨kind, run, hkind, hrun, htoken⟩ :=
    (mem_scanChunks covering token text [] .other nofun fun hne => absurd rfl hne).mp h
  obtain ⟨hne, hpart⟩ := part_of_mem_flushChunk htoken
  refine ⟨hne, fun c hc => ?_⟩
  by_contra hsep
  rw [Bool.not_eq_false] at hsep
  exact hkind ((hrun.2.1 c (hpart c hc)).symm.trans (separator_kind hsep))

theorem splitOnP_intercalate {p : Char → Bool} (hspace : p ' ' = true) {tokens : List (List Char)}
    (h : ∀ t ∈ tokens, t ≠ [] ∧ ∀ c ∈ t, p c = false) :
    ((List.intercalate [' '] tokens).splitOnP p).filter (· ≠ []) = tokens := by
  have hone : ∀ {t : List Char} {l : List (List Char)}, t ≠ [] →
      (t :: l).filter (· ≠ []) = t :: l.filter (· ≠ []) := fun hne => by
    rw [List.filter_cons_of_pos (by simpa using hne)]
  induction tokens with
  | nil => rfl
  | cons t tokens ih =>
      obtain ⟨⟨hne, hclean⟩, hrest⟩ := List.forall_mem_cons.mp h
      cases tokens with
      | nil =>
          rw [List.intercalate_singleton, List.splitOnP_eq_singleton hclean, hone hne]
          rfl
      | cons t' tokens =>
          rw [List.intercalate_cons_cons, List.append_assoc, List.singleton_append,
            List.splitOnP_append_cons_of_forall_mem hclean ' ' hspace, hone hne, ih hrest]

theorem mem_foldl_push (tokens acc : List (List Char)) (token : List Char) :
    token ∈ tokens.foldl push acc ↔ token ∈ acc ∨ token ∈ tokens ∧ token ≠ [] := by
  induction tokens generalizing acc with
  | nil => simp
  | cons t tokens ih =>
      have hpush : token ∈ push acc t ↔ token ∈ acc ∨ token = t ∧ token ≠ [] := by
        rw [push]
        split
        · rename_i hskip
          refine ⟨.inl, ?_⟩
          rintro (hmem | ⟨rfl, hne⟩)
          · exact hmem
          · exact hskip.resolve_left hne
        · rename_i hnew
          rw [List.mem_append, List.mem_singleton]
          refine or_congr_right ⟨fun heq => ⟨heq, ?_⟩, And.left⟩
          rw [heq]
          exact fun hnil => hnew (.inl hnil)
      rw [List.foldl_cons, ih, hpush, List.mem_cons]
      tauto

theorem mem_indexTokens {text : List Char} (h : containsJapanese text = true)
    (token : List Char) : token ∈ indexTokens (segmentJapaneseFtsIndex noMorphTokens text) ↔
      token ∈ mixedBigramTokens text := by
  have hne : text ≠ [] := by
    rintro rfl
    cases h
  have hmem : ∀ t, t ∈ (mixedBigramTokens text).foldl push [] ↔ t ∈ mixedBigramTokens text := by
    intro t
    rw [mem_foldl_push]
    exact ⟨fun hmem => hmem.elim (fun hnil => absurd hnil List.not_mem_nil) And.left,
      fun hmem => .inr ⟨hmem, (token_spec hmem).1⟩⟩
  have hclean : ∀ t ∈ (mixedBigramTokens text).foldl push [],
      t ≠ [] ∧ ∀ c ∈ t, isWhitespace c = false := fun t ht => by
    obtain ⟨hne, hsep⟩ := token_spec ((hmem t).mp ht)
    exact ⟨hne, fun c hc => (Bool.or_eq_false_iff.mp (hsep c hc)).2⟩
  rw [segmentJapaneseFtsIndex, if_neg (by simp [hne, h]), indexTokens, noMorphTokens]
  dsimp only [Option.getD_none, List.nil_append]
  rw [splitOnP_intercalate (by decide) hclean, hmem]

theorem mem_queryTokens {text : List Char} (h : containsJapanese text = true)
    (token : List Char) : token ∈ splitSegments (segmentJapaneseFtsQuery noMorphTokens text) ↔
      token ∈ scanChunks true [] .other text ∧ token ∉ queryStopBases := by
  have hne : text ≠ [] := by
    rintro rfl
    cases h
  have hclean : ∀ t ∈ coveringQueryTokens text, t ≠ [] ∧
      ∀ c ∈ t, (c = '.' || c = '/' || c = ':' || isWhitespace c) = false := fun t ht =>
    token_spec (List.mem_filter.mp ht).1
  rw [segmentJapaneseFtsQuery, if_neg (by simp [hne, h]), splitSegments, noMorphTokens]
  dsimp only [Option.filter_none]
  rw [splitOnP_intercalate (by decide) hclean, coveringQueryTokens, List.mem_filter,
    decide_eq_true_eq]

/-! ## Runs of a document as queries -/

/-- What the arm of `fts_query` that requires all segments asks of a document. -/
def HasAll (document query : List Char) : Prop :=
  ∀ segment ∈ splitSegments (segmentJapaneseFtsQuery noMorphTokens query),
    segment ∈ indexTokens (segmentJapaneseFtsIndex noMorphTokens document)

theorem containsJapanese_of_cjk {text : List Char} {c : Char} (hc : c ∈ text)
    (h : chunkKindFor c = .cjk) : containsJapanese text = true := by
  refine List.any_eq_true.mpr ⟨c, hc, ?_⟩
  rw [chunkKindFor] at h
  split at h
  · cases h
  · split at h
    · assumption
    · cases h

theorem pair_mem_flushChunk {run : List Char} {a b : Char} (h : [a, b] <:+: run) :
    [a, b] ∈ flushChunk false .cjk run := by
  have hne : run ≠ [] := by
    rintro rfl
    exact absurd (List.infix_nil.mp h) (List.cons_ne_nil a [b])
  rw [flushChunk.eq_def, if_neg hne]
  dsimp only
  split
  · rename_i hshort
    rw [h.sublist.eq_of_length_le hshort]
    exact List.mem_singleton_self _
  · exact mem_pairs h

theorem run_of_single {run : List Char} {c : Char} (h : [c] ∈ flushChunk false .cjk run) :
    run = [c] := by
  rw [flushChunk.eq_def] at h
  split at h
  · cases h
  · dsimp only at h
    split at h
    · exact (List.mem_singleton.mp h).symm
    · exact absurd (length_of_mem_pairs h) (by simp)

section Run

variable {document run query : List Char}

theorem single_mem_index (hrun : IsRun .cjk run document) {c : Char} (hc : c ∈ run) :
    [c] ∈ mixedBigramTokens document ↔ IsRun .cjk [c] document := by
  rw [mixedBigramTokens,
    mem_scanChunks false [c] document [] .other nofun fun hne => absurd rfl hne, List.nil_append]
  have hcjk := hrun.2.1 c hc
  constructor
  · rintro ⟨kind, run', hkind, hrun', htoken⟩
    have hmem := (part_of_mem_flushChunk htoken).2 c List.mem_cons_self
    obtain rfl : kind = .cjk := (hrun'.2.1 c hmem).symm.trans hcjk
    rwa [run_of_single htoken] at hrun'
  · exact fun h => ⟨.cjk, [c], by decide, h, List.mem_singleton_self _⟩

/-- A run of characters of a document has all its query tokens in the document's index exactly
where no single character is left over, or it is a stop word or a run of its own. -/
theorem hasAll_iff (hrun : IsRun .cjk run document) (hquery : query <:+: run)
    (hlength : 2 ≤ query.length) : HasAll document query ↔ query.length % 2 = 0 ∨
      ∃ c ∈ query.getLast?, [c] ∈ queryStopBases ∨ IsRun .cjk [c] document := by
  have hne : query ≠ [] := fun hnil => by simp [hnil] at hlength
  have hkind : ∀ c ∈ query, chunkKindFor c = .cjk := fun c hc => hrun.2.1 c (hquery.subset hc)
  have hin : run <:+: document := by
    obtain ⟨-, -, front, back, rfl, -, -⟩ := hrun
    exact ⟨front, back, by rw [List.append_assoc]⟩
  obtain ⟨c, hlast⟩ : ∃ c, query.getLast? = some c := ⟨_, List.getLast?_eq_some_getLast hne⟩
  have hc : c ∈ query := List.mem_of_getLast? hlast
  have hjapanese := containsJapanese_of_cjk hc (hkind c hc)
  have hjapanese' := containsJapanese_of_cjk (hin.subset (hquery.subset hc)) (hkind c hc)
  -- the query is one run, cut into pairs
  have htokens : ∀ t, t ∈ scanChunks true [] .other query ↔ t ∈ flushChunk true .cjk query := by
    intro t
    rw [mem_scanChunks true t query [] .other nofun fun hne => absurd rfl hne, List.nil_append,
      mem_flushChunk true t hkind fun _ => by decide]
  have hlong : ∀ t, 3 ≤ query.length →
      (t ∈ flushChunk true .cjk query ↔ t ∈ coveringPairs query) := fun t hthree => by
    rw [flushChunk.eq_def, if_neg hne]
    dsimp only
    rw [if_neg (by omega), if_pos rfl]
  have hpair : ∀ a b, [a, b] <:+: query → [a, b] ∈ mixedBigramTokens document := fun a b h =>
    (mem_scanChunks false _ document [] .other nofun fun hne => absurd rfl hne).mpr
      ⟨.cjk, run, by decide, hrun, pair_mem_flushChunk (h.trans hquery)⟩
  simp only [HasAll, mem_queryTokens hjapanese, mem_indexTokens hjapanese', htokens]
  constructor
  · intro hall
    refine or_iff_not_imp_left.mpr fun hodd => ⟨c, hlast, or_iff_not_imp_left.mpr fun hstop => ?_⟩
    have hmem := (hlong [c] (by omega)).mpr (last_mem_coveringPairs (by omega) hlast)
    exact (single_mem_index hrun (hquery.subset hc)).mp (hall [c] ⟨hmem, hstop⟩)
  · rintro hcond t ⟨ht, hstop⟩
    rcases Nat.lt_or_ge 2 query.length with hthree | htwo
    · rcases mem_coveringPairs ((hlong t hthree).mp ht) with
        ⟨a, b, rfl, hinfix⟩ | ⟨hodd, d, hd, rfl⟩
      · exact hpair a b hinfix
      · obtain rfl : c = d := Option.some.inj (hlast.symm.trans hd)
        rcases hcond with heven | ⟨e, he, hstop' | hrun'⟩
        · omega
        · obtain rfl : c = e := Option.some.inj (hlast.symm.trans he)
          exact absurd hstop' hstop
        · obtain rfl : c = e := Option.some.inj (hlast.symm.trans he)
          exact (single_mem_index hrun (hquery.subset hc)).mpr hrun'
    · obtain ⟨a, b, rfl⟩ := List.length_eq_two.mp (Nat.le_antisymm htwo hlength)
      obtain rfl := List.mem_singleton.mp ht
      exact hpair a b List.infix_rfl

end Run

/-- The four characters of a run. -/
theorem hasAll_four : HasAll "自然言語検索".toList "然言語検".toList := by
  have hrun : IsRun .cjk "自然言語検索".toList "自然言語検索".toList :=
    ⟨by decide, forall_mem_of_all (by decide), [], [], by decide, nofun, nofun⟩
  have hquery : "然言語検".toList <:+: "自然言語検索".toList :=
    ⟨"自".toList, "索".toList, by decide⟩
  exact (hasAll_iff hrun hquery (by decide)).mpr (.inl (by decide))

/-- Three characters of a run: the last one is no token of the index. -/
theorem not_hasAll_three : ¬ ∀ document run query, IsRun .cjk run document → query <:+: run →
    2 ≤ query.length → HasAll document query := by
  intro hall
  have hrun : IsRun .cjk "自然言語検索".toList "自然言語検索".toList :=
    ⟨by decide, forall_mem_of_all (by decide), [], [], by decide, nofun, nofun⟩
  have hquery := hall _ _ "自然言".toList hrun ⟨[], "語検索".toList, by decide⟩ (by decide)
  have htoken : "言".toList ∈ splitSegments
      (segmentJapaneseFtsQuery noMorphTokens "自然言".toList) := by decide +kernel
  exact absurd (hquery _ htoken) (by decide +kernel)

end JapaneseFts

end Dagayn
