import Dagayn.ByteSlices
import Dagayn.Json
import Dagayn.Text

/-!
# Import aliases

The `paths` patterns of a tsconfig. `javascript_alias_match` cuts a specifier by the bytes of the
texts around the star of a pattern; where the two overlap in the specifier, the slice ends before
it starts, and the parse of the importer ends with it.
-/

namespace Dagayn

namespace JsAlias

/-! ## One pattern -/

/-- `javascript_alias_specificity`. -/
def aliasSpecificity (pattern : List Char) : Nat :=
  match splitFirst ['*'] pattern with
  | some (front, _) => byteLen front
  | none => byteLen pattern

/-- `javascript_alias_match`, with `none` for a panic. -/
def aliasMatch (pattern module : List Char) : Option (Option (List Char)) :=
  match splitFirst ['*'] pattern with
  | none => some (if pattern = module then some [] else none)
  | some (front, back) =>
      if !front.isPrefixOf module || !back.isSuffixOf module then some none
      else
        let stop := byteLen module - byteLen back
        (slice (byteLen front) stop module).map some

/-- The specifier is the pattern with a text in the place of its first star. -/
def AliasOf (pattern module rest : List Char) : Prop :=
  (∃ front back, pattern = front ++ '*' :: back ∧ '*' ∉ front ∧ module = front ++ rest ++ back) ∨
    ('*' ∉ pattern ∧ module = pattern ∧ rest = [])

/-- The specifier begins with what is in front of the star and ends with what is behind it, but
is too short for both. -/
def Overlaps (pattern module : List Char) : Prop :=
  ∃ front back, pattern = front ++ '*' :: back ∧ '*' ∉ front ∧ front <+: module ∧
    back <:+ module ∧ module.length < front.length + back.length

theorem splitFirst_star (pattern : List Char) :
    (∃ front back, splitFirst ['*'] pattern = some (front, back) ∧
      pattern = front ++ '*' :: back ∧ '*' ∉ front) ∨
      (splitFirst ['*'] pattern = none ∧ '*' ∉ pattern) := by
  induction pattern with
  | nil => exact .inr ⟨rfl, List.not_mem_nil⟩
  | cons c rest ih =>
      rw [splitFirst]
      by_cases hc : c = '*'
      · subst hc
        exact .inl ⟨[], rest, by simp, rfl, List.not_mem_nil⟩
      · have hstar : ['*'].isPrefixOf (c :: rest) = false := by
          simp [List.isPrefixOf, Ne.symm hc]
        rw [hstar]
        rcases ih with ⟨front, back, hsplit, rfl, hfront⟩ | ⟨hsplit, hrest⟩
        · refine .inl ⟨c :: front, back, by simp [hsplit], rfl, ?_⟩
          simp [Ne.symm hc, hfront]
        · exact .inr ⟨by simp [hsplit], by simp [Ne.symm hc, hrest]⟩

theorem star_unique {front back front' back' : List Char} (hfront : '*' ∉ front)
    (hfront' : '*' ∉ front') (h : front ++ '*' :: back = front' ++ '*' :: back') :
    front = front' ∧ back = back' := by
  induction front generalizing front' with
  | nil =>
      cases front' with
      | nil => exact ⟨rfl, (List.cons.inj h).2⟩
      | cons c rest => exact absurd ((List.cons.inj h).1 ▸ List.mem_cons_self) hfront'
  | cons c rest ih =>
      cases front' with
      | nil => exact absurd ((List.cons.inj h).1 ▸ List.mem_cons_self) hfront
      | cons c' rest' =>
          obtain ⟨rfl, htail⟩ := List.cons.inj h
          obtain ⟨rfl, rfl⟩ := ih (fun hm => hfront (List.mem_cons_of_mem _ hm))
            (fun hm => hfront' (List.mem_cons_of_mem _ hm)) htail
          exact ⟨rfl, rfl⟩

theorem exists_between {front back module : List Char} (hfront : front <+: module)
    (hback : back <:+ module) (h : front.length + back.length ≤ module.length) :
    ∃ rest, module = front ++ rest ++ back := by
  obtain ⟨behind, rfl⟩ := hfront
  have hlength : back.length ≤ behind.length := by
    rw [List.length_append] at h
    omega
  obtain ⟨rest, rfl⟩ := (List.suffix_of_suffix_length_le hback
    (List.suffix_append front behind) hlength)
  exact ⟨rest, (List.append_assoc _ _ _).symm⟩

/-- Where a prefix and a suffix overlap, the bytes of the suffix start in the prefix. -/
theorem byteLen_sub_lt {front back module : List Char} (hfront : front <+: module)
    (hback : back <:+ module) (h : module.length < front.length + back.length) :
    byteLen module - byteLen back < byteLen front := by
  obtain ⟨before, rfl⟩ := hback
  have hshort : before.length < front.length := by
    rw [List.length_append] at h
    omega
  obtain ⟨more, rfl⟩ := List.prefix_of_prefix_length_le (List.prefix_append before back) hfront
    (Nat.le_of_lt hshort)
  have hmore : more ≠ [] := by
    rintro rfl
    simp at hshort
  have hpos := byteLen_pos hmore
  rw [byteLen_append, byteLen_append]
  omega

theorem aliasMatch_star {front back : List Char} (hfront : '*' ∉ front) (module : List Char) :
    aliasMatch (front ++ '*' :: back) module =
      if front <+: module ∧ back <:+ module then
        (slice (byteLen front) (byteLen module - byteLen back) module).map some
      else some none := by
  rcases splitFirst_star (front ++ '*' :: back) with ⟨front', back', hsplit, heq, hfront'⟩ |
    ⟨-, hstar⟩
  · obtain ⟨rfl, rfl⟩ := star_unique hfront hfront' heq
    rw [aliasMatch, hsplit]
    by_cases hpre : front <+: module <;> by_cases hsuf : back <:+ module <;>
      simp [← List.isPrefixOf_iff_prefix, ← List.isSuffixOf_iff_suffix] at hpre hsuf <;>
      simp [hpre, hsuf, ← List.isPrefixOf_iff_prefix, ← List.isSuffixOf_iff_suffix]
  · exact absurd (List.mem_append_right _ List.mem_cons_self) hstar

theorem aliasMatch_plain {pattern : List Char} (h : '*' ∉ pattern) (module : List Char) :
    aliasMatch pattern module = some (if pattern = module then some [] else none) := by
  rcases splitFirst_star pattern with ⟨front, back, -, rfl, -⟩ | ⟨hsplit, -⟩
  · exact absurd (List.mem_append_right _ List.mem_cons_self) h
  · rw [aliasMatch, hsplit]

theorem slice_between (front rest back : List Char) :
    slice (byteLen front) (byteLen (front ++ rest ++ back) - byteLen back)
      (front ++ rest ++ back) = some rest := by
  have hstop : byteLen (front ++ rest ++ back) - byteLen back = byteLen front + byteLen rest := by
    rw [byteLen_append, byteLen_append, Nat.add_sub_cancel]
  rw [hstop, List.append_assoc]
  exact slice_append front rest back

theorem aliasMatch_eq_none_iff (pattern module : List Char) :
    aliasMatch pattern module = none ↔ Overlaps pattern module := by
  rcases splitFirst_star pattern with ⟨front, back, -, rfl, hfront⟩ | ⟨-, hstar⟩
  · rw [aliasMatch_star hfront]
    constructor
    · intro h
      split at h
      · rename_i hends
        refine ⟨front, back, rfl, hfront, hends.1, hends.2, Nat.lt_of_not_le fun hroom => ?_⟩
        obtain ⟨rest, rfl⟩ := exists_between hends.1 hends.2 hroom
        rw [slice_between] at h
        cases h
      · cases h
    · rintro ⟨front', back', heq, hfront', hpre, hsuf, hshort⟩
      obtain ⟨rfl, rfl⟩ := star_unique hfront hfront' heq
      have hlt := byteLen_sub_lt hpre hsuf hshort
      rw [if_pos ⟨hpre, hsuf⟩, slice, if_neg (by omega)]
      rfl
  · rw [aliasMatch_plain hstar]
    refine ⟨fun h => (by cases h), ?_⟩
    rintro ⟨front, back, rfl, -⟩
    exact absurd (List.mem_append_right _ List.mem_cons_self) hstar

theorem aliasMatch_eq_some_iff (pattern module rest : List Char) :
    aliasMatch pattern module = some (some rest) ↔ AliasOf pattern module rest := by
  rcases splitFirst_star pattern with ⟨front, back, -, rfl, hfront⟩ | ⟨-, hstar⟩
  · rw [aliasMatch_star hfront]
    constructor
    · intro h
      split at h
      · rename_i hends
        by_cases hroom : front.length + back.length ≤ module.length
        · obtain ⟨rest', rfl⟩ := exists_between hends.1 hends.2 hroom
          rw [slice_between] at h
          obtain rfl : rest' = rest := by simpa using h
          exact .inl ⟨front, back, rfl, hfront, rfl⟩
        · have hlt := byteLen_sub_lt hends.1 hends.2 (Nat.lt_of_not_le hroom)
          rw [slice, if_neg (by omega)] at h
          cases h
      · cases h
    · rintro (⟨front', back', heq, hfront', rfl⟩ | ⟨hplain, -, -⟩)
      · obtain ⟨rfl, rfl⟩ := star_unique hfront hfront' heq
        have hpre : front <+: front ++ rest ++ back := ⟨rest ++ back, by simp⟩
        have hsuf : back <:+ front ++ rest ++ back := List.suffix_append _ _
        rw [if_pos ⟨hpre, hsuf⟩, slice_between]
        rfl
      · exact absurd (List.mem_append_right _ List.mem_cons_self) hplain
  · rw [aliasMatch_plain hstar]
    constructor
    · intro h
      split at h
      · rename_i heq
        obtain rfl : [] = rest := by simpa using h
        exact .inr ⟨hstar, heq.symm, rfl⟩
      · cases h
    · rintro (⟨front, back, rfl, -⟩ | ⟨-, rfl, rfl⟩)
      · exact absurd (List.mem_append_right _ List.mem_cons_self) hstar
      · rw [if_pos rfl]

/-! ## The patterns of a tsconfig -/

/-- `PathBuf::join`. -/
def joinPath (base part : List Char) : List Char :=
  if part.head? = some '/' then part
  else if base.getLast?.any (· ≠ '/') then base ++ '/' :: part
  else base ++ part

/-- What `find_javascript_tsconfig` finds: the directory of the file, and `compilerOptions`. -/
structure Tsconfig where
  dir : List Char
  options : Option Json

abbrev Pattern := String × Json

def Pattern.text (p : Pattern) : List Char := p.1.toList

/-- `options.get("paths").and_then(Value::as_object)`. -/
def pathsOf (options : Json) : List Pattern :=
  match options.get "paths" with
  | some (.obj paths) => paths
  | _ => []

/-- `patterns.sort_by_key` on the reversed specificity; the sort is stable. -/
def sortedPatterns (patterns : List Pattern) : List Pattern :=
  patterns.mergeSort fun a b => aliasSpecificity b.text ≤ aliasSpecificity a.text

/-- The replacement with the text that the star of the pattern stands for. -/
def mapped (replacement rest : List Char) : List Char :=
  match splitFirst ['*'] replacement with
  | some (front, back) => front ++ rest ++ back
  | none => replacement

section Resolve

/- `probe_javascript_module_candidate` and `javascript_module_candidate_is_dir`: what the file
system has at a path. -/
variable (probe : List Char → Option String) (isDir : List Char → Bool)

/-- The replacements of one pattern, the first that leads to a file. -/
def tryReplacements (baseDir rest : List Char) : Json → Option String
  | .arr replacements => replacements.findSome? fun replacement =>
      replacement.asStr.bind fun text => probe (joinPath baseDir (mapped text.toList rest))
  | _ => none

/-- The loop over the patterns: the file, and whether a pattern matched; `none` for a panic. -/
def tryPatterns (baseDir module : List Char) (matched : Bool) :
    List Pattern → Option (Option String × Bool)
  | [] => some (none, matched)
  | p :: patterns =>
      match aliasMatch p.text module with
      | none => none
      | some none => tryPatterns baseDir module matched patterns
      | some (some rest) =>
          match tryReplacements probe baseDir rest p.2 with
          | some path => some (some path, true)
          | none => tryPatterns baseDir module true patterns

def baseDir (config : Tsconfig) (options : Json) : List Char :=
  joinPath config.dir ((options.getStr "baseUrl").getD "").toList

/-- `resolve_javascript_alias`, with `none` for a panic. -/
def resolveAlias (found : Option Tsconfig) (module : List Char) : Option (Option String) :=
  match found with
  | none => some none
  | some config =>
      match config.options with
      | none => some none
      | some options =>
          (tryPatterns probe (baseDir config options) module false
            (sortedPatterns (pathsOf options))).map fun (path, matched) =>
              if path.isSome || matched then path
              else (options.getStr "baseUrl").bind fun _ =>
                probe (joinPath (baseDir config options) module)

/-- `paths.keys().any(..)`, with `none` for a panic. -/
def anyMatches (module : List Char) : List Pattern → Option Bool
  | [] => some false
  | p :: patterns =>
      if p.1 = "*" then anyMatches module patterns
      else
        match aliasMatch p.text module with
        | none => none
        | some (some _) => some true
        | some none => anyMatches module patterns

/-- `javascript_is_repo_alias`, with `none` for a panic. -/
def isRepoAlias (found : Option Tsconfig) (module : List Char) : Option Bool :=
  match found with
  | none => some false
  | some config =>
      match config.options with
      | none => some false
      | some options =>
          (anyMatches module (pathsOf options)).map fun hit =>
            hit || (options.getStr "baseUrl").any fun baseUrl =>
              let candidate :=
                joinPath (joinPath config.dir baseUrl.toList) (module.takeWhile (· ≠ '/'))
              isDir candidate || (probe candidate).isSome

/-- The file that a pattern leads to, where it matches. -/
def answerOf (base module : List Char) (p : Pattern) : Option String :=
  (aliasMatch p.text module).join.bind fun rest => tryReplacements probe base rest p.2

def Matches (module : List Char) (p : Pattern) : Prop := ∃ rest, AliasOf p.text module rest

/-- A pattern whose ends overlap in the specifier stands behind none that stops the loop. -/
def Reached (stops : Pattern → Prop) (module : List Char) (patterns : List Pattern) : Prop :=
  ∃ before p behind, patterns = before ++ p :: behind ∧ Overlaps p.text module ∧
    ∀ q ∈ before, ¬ stops q

def Answers (base module : List Char) (p : Pattern) : Prop :=
  ∃ path, answerOf probe base module p = some path

/-- The file of the first pattern that leads to one, and of the specifier below `baseUrl` only
where no pattern matches. -/
structure Resolves (base : List Char) (options : Json) (module : List Char)
    (patterns : List Pattern) (r : Option String) : Prop where
  first : ∀ path, patterns.findSome? (answerOf probe base module) = some path → r = some path
  noFile : patterns.findSome? (answerOf probe base module) = none →
    (∃ p ∈ patterns, Matches module p) → r = none
  fallback : (∀ p ∈ patterns, ¬ Matches module p) →
    r = (options.getStr "baseUrl").bind fun _ => probe (joinPath base module)

variable {probe} {isDir} {base module : List Char}

theorem reached_cons {stops : Pattern → Prop} {p : Pattern} {patterns : List Pattern} :
    Reached stops module (p :: patterns) ↔
      Overlaps p.text module ∨ ¬ stops p ∧ Reached stops module patterns := by
  constructor
  · rintro ⟨before, q, behind, heq, hover, hbefore⟩
    cases before with
    | nil =>
        obtain ⟨rfl, -⟩ := List.cons.inj heq
        exact .inl hover
    | cons p' before =>
        obtain ⟨rfl, rfl⟩ := List.cons.inj heq
        exact .inr ⟨hbefore p List.mem_cons_self, before, q, behind, rfl, hover,
          fun q' hq' => hbefore q' (List.mem_cons_of_mem _ hq')⟩
  · rintro (hover | ⟨hstop, before, q, behind, rfl, hover, hbefore⟩)
    · exact ⟨[], p, patterns, rfl, hover, fun q hq => absurd hq List.not_mem_nil⟩
    · refine ⟨p :: before, q, behind, rfl, hover, fun q' hq' => ?_⟩
      rcases List.mem_cons.mp hq' with rfl | hq'
      · exact hstop
      · exact hbefore q' hq'

theorem not_reached_nil {stops : Pattern → Prop} : ¬ Reached stops module [] := by
  rintro ⟨before, p, behind, heq, -⟩
  exact List.append_ne_nil_of_right_ne_nil _ (List.cons_ne_nil _ _) heq.symm

theorem matches_iff {p : Pattern} :
    Matches module p ↔ ∃ rest, aliasMatch p.text module = some (some rest) :=
  exists_congr fun rest => (aliasMatch_eq_some_iff p.text module rest).symm

theorem answerOf_of_not_matches {p : Pattern} (h : ¬ Matches module p) :
    answerOf probe base module p = none := by
  rw [matches_iff] at h
  rw [answerOf]
  rcases hmatch : aliasMatch p.text module with _ | _ | rest
  · rfl
  · rfl
  · exact absurd ⟨rest, hmatch⟩ h

theorem tryPatterns_eq_none_iff (matched : Bool) (patterns : List Pattern) :
    tryPatterns probe base module matched patterns = none ↔
      Reached (Answers probe base module) module patterns := by
  induction patterns generalizing matched with
  | nil => exact ⟨nofun, fun h => absurd h not_reached_nil⟩
  | cons p patterns ih =>
      rw [reached_cons, ← aliasMatch_eq_none_iff, tryPatterns, Answers, answerOf]
      rcases hmatch : aliasMatch p.text module with _ | _ | rest
      · simp
      · simp [ih]
      · cases hfile : tryReplacements probe base rest p.2 with
        | none => simp [hfile, ih]
        | some path => simp [hfile]

theorem tryPatterns_eq_some {matched matched' : Bool} {patterns : List Pattern}
    {path : Option String}
    (h : tryPatterns probe base module matched patterns = some (path, matched')) :
    path = patterns.findSome? (answerOf probe base module) ∧
      (path = none → (matched' = true ↔ matched = true ∨ ∃ p ∈ patterns, Matches module p)) := by
  induction patterns generalizing matched with
  | nil =>
      obtain ⟨rfl, rfl⟩ := Prod.mk.inj (Option.some.inj h)
      simp
  | cons p patterns ih =>
      rw [tryPatterns] at h
      rw [List.findSome?_cons, answerOf]
      simp only [List.exists_mem_cons_iff, matches_iff] at ih ⊢
      rcases hmatch : aliasMatch p.text module with _ | _ | rest
      · rw [hmatch] at h
        cases h
      · rw [hmatch] at h
        simpa using ih h
      · rw [hmatch] at h
        simp only at h
        cases hfile : tryReplacements probe base rest p.2 with
        | none =>
            rw [hfile] at h
            simpa [hfile] using ih h
        | some file =>
            rw [hfile] at h
            obtain ⟨rfl, rfl⟩ := Prod.mk.inj (Option.some.inj h)
            simp [hfile]

theorem resolveAlias_eq_none_iff (dir : List Char) (options : Json) (module : List Char) :
    resolveAlias probe (some ⟨dir, some options⟩) module = none ↔
      Reached (Answers probe (baseDir ⟨dir, some options⟩ options) module) module
        (sortedPatterns (pathsOf options)) := by
  rw [resolveAlias, Option.map_eq_none_iff, tryPatterns_eq_none_iff]

theorem resolves_of_resolveAlias {dir : List Char} {options : Json} {module : List Char}
    {r : Option String} (h : resolveAlias probe (some ⟨dir, some options⟩) module = some r) :
    Resolves probe (baseDir ⟨dir, some options⟩ options) options module
      (sortedPatterns (pathsOf options)) r := by
  rw [resolveAlias] at h
  obtain ⟨⟨path, matched⟩, htry, rfl⟩ := Option.map_eq_some_iff.mp h
  obtain ⟨hpath, hmatched⟩ := tryPatterns_eq_some htry
  constructor
  · intro path' hfirst
    rw [← hpath] at hfirst
    simp [hfirst]
  · intro hnone hany
    rw [← hpath] at hnone
    simp [(hmatched hnone).mpr (.inr hany), hnone]
  · intro hno
    have hnone : path = none := by
      rw [hpath, List.findSome?_eq_none_iff]
      exact fun p hp => answerOf_of_not_matches (hno p hp)
    have hunmatched : matched = false := by
      rw [Bool.eq_false_iff, Ne, hmatched hnone]
      rintro (hfalse | ⟨p, hp, hm⟩)
      · cases hfalse
      · exact hno p hp hm
    simp [hnone, hunmatched]

theorem anyMatches_eq_none_iff (patterns : List Pattern) :
    anyMatches module patterns = none ↔
      Reached (fun q => q.1 ≠ "*" ∧ Matches module q) module patterns := by
  induction patterns with
  | nil => exact ⟨nofun, fun h => absurd h not_reached_nil⟩
  | cons p patterns ih =>
      rw [reached_cons, ← aliasMatch_eq_none_iff, anyMatches, matches_iff]
      by_cases hstar : p.1 = "*"
      · have hsome : aliasMatch p.text module ≠ none := by
          rw [Ne, aliasMatch_eq_none_iff, Pattern.text, hstar]
          rintro ⟨front, back, heq, -, -, -, hshort⟩
          have hlength := congrArg List.length heq
          simp at hlength
          omega
        simp [hstar, ih, hsome]
      · rw [if_neg hstar]
        rcases hmatch : aliasMatch p.text module with _ | _ | rest
        · simp
        · simp [ih]
        · simp [hstar]

theorem isRepoAlias_eq_none_iff (dir : List Char) (options : Json) (module : List Char) :
    isRepoAlias probe isDir (some ⟨dir, some options⟩) module = none ↔
      Reached (fun q => q.1 ≠ "*" ∧ Matches module q) module (pathsOf options) := by
  rw [isRepoAlias, Option.map_eq_none_iff, anyMatches_eq_none_iff]

theorem sortedPatterns_perm (patterns : List Pattern) :
    (sortedPatterns patterns).Perm patterns := List.mergeSort_perm _ _

theorem sortedPatterns_pairwise (patterns : List Pattern) :
    (sortedPatterns patterns).Pairwise fun a b =>
      aliasSpecificity b.text ≤ aliasSpecificity a.text := by
  have hsorted : (sortedPatterns patterns).Pairwise fun a b =>
      decide (aliasSpecificity b.text ≤ aliasSpecificity a.text) = true :=
    List.pairwise_mergeSort
      (fun a b c hab hbc => by
        rw [decide_eq_true_eq] at hab hbc ⊢
        exact Nat.le_trans hbc hab)
      (fun a b => by simpa using Nat.le_total _ _) patterns
  exact hsorted.imp fun h => of_decide_eq_true h

end Resolve

/-- A pattern is matched by its text around the first star, and a tsconfig is read to its end,
but for the patterns whose ends overlap in the specifier. -/
theorem alias_iff_not_overlaps (pattern module : List Char)
    (probe : List Char → Option String) (isDir : List Char → Bool) (dir : List Char)
    (options : Json) :
    ((∃ r, aliasMatch pattern module = some r ∧
      ∀ rest, r = some rest ↔ AliasOf pattern module rest) ↔ ¬ Overlaps pattern module) ∧
      (sortedPatterns (pathsOf options)).Perm (pathsOf options) ∧
      ((sortedPatterns (pathsOf options)).Pairwise fun a b =>
        aliasSpecificity b.text ≤ aliasSpecificity a.text) ∧
      ((∃ r, resolveAlias probe (some ⟨dir, some options⟩) module = some r ∧
        Resolves probe (baseDir ⟨dir, some options⟩ options) options module
          (sortedPatterns (pathsOf options)) r) ↔
        ¬ Reached (Answers probe (baseDir ⟨dir, some options⟩ options) module) module
          (sortedPatterns (pathsOf options))) ∧
      ((∃ hit, isRepoAlias probe isDir (some ⟨dir, some options⟩) module = some hit) ↔
        ¬ Reached (fun q => q.1 ≠ "*" ∧ Matches module q) module (pathsOf options)) := by
  constructor
  · rw [← aliasMatch_eq_none_iff]
    constructor
    · rintro ⟨r, hr, -⟩ hnone
      rw [hr] at hnone
      cases hnone
    · intro hsome
      obtain ⟨r, hr⟩ := Option.ne_none_iff_exists'.mp hsome
      refine ⟨r, hr, fun rest => ?_⟩
      rw [← aliasMatch_eq_some_iff, hr, Option.some.injEq]
  · refine ⟨sortedPatterns_perm _, sortedPatterns_pairwise _, ?_, ?_⟩
    · rw [← resolveAlias_eq_none_iff]
      constructor
      · rintro ⟨r, hr, -⟩ hnone
        rw [hr] at hnone
        cases hnone
      · intro hsome
        obtain ⟨r, hr⟩ := Option.ne_none_iff_exists'.mp hsome
        exact ⟨r, hr, resolves_of_resolveAlias hr⟩
    · rw [← @isRepoAlias_eq_none_iff probe isDir dir options module]
      exact Option.ne_none_iff_exists'.symm

/-- `import "@app/index"` under the pattern `@app/*/index`. -/
theorem aliasMatch_panics :
    aliasMatch "@app/*/index".toList "@app/index".toList = none := by decide +kernel

end JsAlias

end Dagayn
