import Dagayn.Alphanumeric
import Dagayn.Dict
import Dagayn.Lowercase
import Dagayn.ParsedFile
import Dagayn.RelativePaths

/-!
# Headings and their slugs

`assign_heading_slugs` gives each heading the first free one of `base`, `base-1`, `base-2`, and
so on. It starts the search at the number of earlier headings of the same base: what it skips is
taken (`Taken.skips`), although other headings may hold it. The sections hang on the nearest
earlier heading of a smaller level, and a link to a slug leads to its section.
-/

namespace Dagayn

namespace Markdowns

/-! ## Slugs -/

def slugChar (c : Char) : List Char :=
  if isAlphanumeric c then Lowercase.lowerChar c
  else if c = ' ' ∨ c = '-' then ['-']
  else if c = '_' then ['_']
  else []

def markdownSlugify (text : List Char) : List Char := text.flatMap slugChar

/-- `format!("{base}-{k}")`. -/
def candidate (base : List Char) (k : Nat) : List Char := base ++ '-' :: Nat.toDigits 10 k

theorem candidate_inj {base : List Char} {j k : Nat} (h : candidate base j = candidate base k) :
    j = k := by
  have hdigits := (List.cons.inj (List.append_cancel_left h)).2
  rw [← @Nat.ofDigitChars_ten_toDigits j, hdigits, Nat.ofDigitChars_ten_toDigits]

def ahead (base : List Char) (assigned : List (List Char)) (k : Nat) : List (List Char) :=
  assigned.filter fun slug => ∀ j < k, slug ≠ candidate base j

theorem length_ahead_lt {base : List Char} {assigned : List (List Char)} {k : Nat}
    (h : candidate base k ∈ assigned) :
    (ahead base assigned (k + 1)).length < (ahead base assigned k).length := by
  have hsub : ahead base assigned (k + 1) =
      (ahead base assigned k).filter (· ≠ candidate base k) := by
    rw [ahead, ahead, List.filter_filter]
    refine List.filter_congr fun slug _ => ?_
    rw [← Bool.decide_and]
    refine decide_eq_decide.mpr ⟨fun hall => ⟨hall k (Nat.lt_succ_self k), fun j hj =>
      hall j (Nat.lt_succ_of_lt hj)⟩, fun ⟨hk, hall⟩ j hj => ?_⟩
    rcases Nat.lt_succ_iff_lt_or_eq.mp hj with hj | rfl
    · exact hall j hj
    · exact hk
  have hmem : candidate base k ∈ ahead base assigned k :=
    List.mem_filter.mpr ⟨h, decide_eq_true fun j hj heq => by
      have := candidate_inj heq
      omega⟩
  rw [hsub]
  exact List.length_filter_lt_length_iff_exists.mpr ⟨_, hmem, by simp⟩

/-- The first candidate from `k` on that is not assigned. -/
def freeFrom (base : List Char) (assigned : List (List Char)) (k : Nat) : Nat :=
  if candidate base k ∈ assigned then freeFrom base assigned (k + 1) else k
termination_by (ahead base assigned k).length
decreasing_by exact length_ahead_lt (by assumption)

structure Heading where
  text : List Char
  slug : List Char
  level : Int
  line : Int
deriving DecidableEq

/-- A heading of the text: its text, level and line. -/
abbrev RawHeading := List Char × Int × Int

structure SlugState where
  counts : Dict (List Char) Nat
  assigned : List (List Char)

/-- The slug of a base, of which there were `n` before. -/
def slugFor (s : SlugState) (base : List Char) (n : Nat) : List Char :=
  if n = 0 ∧ base ∉ s.assigned then base
  else candidate base (freeFrom base s.assigned (max n 1))

variable (linkText : List Char → List Char)

/-- The base of a heading; `linkText` is `MARKDOWN_HEADING_LINK_RE.replace_all(.., "$1")`. -/
def baseOf (text : List Char) : List Char := markdownSlugify (linkText text)

def assignFrom (s : SlugState) : List RawHeading → List Heading
  | [] => []
  | (text, level, line) :: raw =>
      let base := baseOf linkText text
      let n := s.counts.getD base 0
      let slug := slugFor s base n
      { text, slug, level, line } ::
        assignFrom ⟨AList.insert base (n + 1) s.counts, slug :: s.assigned⟩ raw

def assignHeadingSlugs (raw : List RawHeading) : List Heading := assignFrom linkText ⟨∅, []⟩ raw

/-! ## Sections -/

def sectionName (filePath : String) (slug : List Char) : String :=
  filePath ++ "::" ++ String.ofList slug

theorem toList_sectionName (filePath : String) (slug : List Char) :
    (sectionName filePath slug).toList = filePath.toList ++ ':' :: ':' :: slug := by
  simp only [sectionName, String.toList_append, String.toList_ofList, List.append_assoc]
  rfl

def sectionNode (filePath : String) (h : Heading) : ParsedNode where
  kind := .docSection
  name := String.ofList h.slug
  filePath := filePath
  lineStart := h.line
  lineEnd := h.line
  language := "markdown"
  extra := .obj [("markdown_kind", .str "section"), ("display_name", .str (String.ofList h.text)),
    ("heading_level", .int h.level)]

def sectionEdge (filePath : String) (container : String) (h : Heading) : ParsedEdge where
  kind := .contains
  source := container
  target := sectionName filePath h.slug
  filePath := filePath
  line := h.line

/-- The containing sections that a heading leaves open, the last one first. -/
def openFor (level : Int) (stack : List (Int × String)) : List (Int × String) :=
  stack.dropWhile fun s => s.1 ≥ level

/-- The sections of a file, with the edges to them: a part of `parse_markdown_with_parser`. -/
def sectionsFrom (filePath : String) (stack : List (Int × String)) :
    List Heading → List (ParsedNode × ParsedEdge)
  | [] => []
  | h :: headings =>
      let stack := openFor h.level stack
      let container := (stack.head?.map Prod.snd).getD filePath
      (sectionNode filePath h, sectionEdge filePath container h) ::
        sectionsFrom filePath ((h.level, sectionName filePath h.slug) :: stack) headings

/-! ## Targets of links -/

def markdownTarget (rawTarget sourceFile : List Char) : Option (List Char) :=
  let rawTarget := trim rawTarget
  if rawTarget = [] ∨ rawTarget.head? = some '/' then none
  else
    match rawTarget with
    | '#' :: anchor =>
        let slug := markdownSlugify (trim anchor)
        if slug = [] then none else some (sourceFile ++ ':' :: ':' :: slug)
    | _ =>
        let split := splitFirst ['#'] rawTarget
        let path := (split.map Prod.fst).getD rawTarget
        let dir := (RelPath.parent (RelPath.components sourceFile)).getD []
        let targetPath := RelPath.normalizeRelativePath (RelPath.join dir path)
        match split with
        | none => some targetPath
        | some (_, behind) =>
            let slug := markdownSlugify (trim behind)
            if slug = [] then some targetPath else some (targetPath ++ ':' :: ':' :: slug)

/-! ## The search skips what is taken -/

/-- `base`, `base-1`, `base-2`, and so on. -/
def names (base : List Char) : Nat → List Char
  | 0 => base
  | k + 1 => candidate base (k + 1)

def FirstFree (base : List Char) (taken : List (List Char)) (slug : List Char) : Prop :=
  slug ∉ taken ∧ ∃ k, slug = names base k ∧ ∀ j < k, names base j ∈ taken

/-- As many names of a base are taken as were counted. -/
def Skips (s : SlugState) : Prop :=
  ∀ base, ∀ j < s.counts.getD base 0, names base j ∈ s.assigned

theorem names_of_pos (base : List Char) {k : Nat} (h : 0 < k) :
    names base k = candidate base k := by
  cases k with
  | zero => cases h
  | succ k => rfl

theorem freeFrom_spec (base : List Char) (assigned : List (List Char)) (k : Nat) :
    k ≤ freeFrom base assigned k ∧ candidate base (freeFrom base assigned k) ∉ assigned ∧
      ∀ j, k ≤ j → j < freeFrom base assigned k → candidate base j ∈ assigned := by
  fun_induction freeFrom base assigned k with
  | case1 k htaken ih =>
      obtain ⟨hle, hfree, hall⟩ := ih
      refine ⟨by omega, hfree, fun j hj hlt => ?_⟩
      rcases Nat.eq_or_lt_of_le hj with rfl | hj
      · exact htaken
      · exact hall j hj hlt
  | case2 k hfree => exact ⟨Nat.le_refl k, hfree, fun j hj hlt => by omega⟩

theorem slugFor_spec {s : SlugState} {base : List Char} {n : Nat}
    (hskips : ∀ j < n, names base j ∈ s.assigned) :
    FirstFree base s.assigned (slugFor s base n) ∧
      ∀ j < n + 1, names base j ∈ slugFor s base n :: s.assigned := by
  rw [slugFor]
  split
  · rename_i h
    obtain ⟨rfl, hfree⟩ := h
    refine ⟨⟨hfree, 0, rfl, fun j hj => by omega⟩, fun j hj => ?_⟩
    obtain rfl : j = 0 := by omega
    exact List.mem_cons_self
  · rename_i h
    obtain ⟨hle, hfree, hall⟩ := freeFrom_spec base s.assigned (max n 1)
    have hpos : 0 < freeFrom base s.assigned (max n 1) := by omega
    have hbefore : ∀ j < freeFrom base s.assigned (max n 1), names base j ∈ s.assigned := by
      intro j hj
      rcases Nat.lt_or_ge j n with hjn | hjn
      · exact hskips j hjn
      · rcases Nat.eq_zero_or_pos j with rfl | hjpos
        · exact Decidable.not_not.mp fun hnot => h ⟨by omega, hnot⟩
        · rw [names_of_pos base hjpos]
          exact hall j (by omega) hj
    refine ⟨⟨hfree, _, (names_of_pos base hpos).symm, hbefore⟩, fun j hj => ?_⟩
    rcases Nat.lt_or_ge j (freeFrom base s.assigned (max n 1)) with hlt | hge
    · exact List.mem_cons_of_mem _ (hbefore j hlt)
    · obtain rfl : j = freeFrom base s.assigned (max n 1) := by omega
      rw [names_of_pos base hpos]
      exact List.mem_cons_self

theorem Skips.next {s : SlugState} (h : Skips s) (base : List Char) :
    let n := s.counts.getD base 0
    Skips ⟨AList.insert base (n + 1) s.counts, slugFor s base n :: s.assigned⟩ := by
  intro n base' j hj
  dsimp only at hj ⊢
  rw [Dict.getD_insert] at hj
  split at hj
  · rename_i heq
    subst heq
    exact (slugFor_spec (h base')).2 j hj
  · exact List.mem_cons_of_mem _ (h base' j hj)

theorem skips_empty : Skips ⟨∅, []⟩ := fun base j hj => by
  rw [Dict.getD_empty] at hj
  cases hj

variable {linkText}

theorem firstFree_of_assignFrom {raw : List RawHeading} {s : SlugState} (hskips : Skips s)
    {before after : List Heading} {h : Heading}
    (heq : assignFrom linkText s raw = before ++ h :: after) :
    FirstFree (baseOf linkText h.text) ((before.map Heading.slug).reverse ++ s.assigned)
      h.slug := by
  induction raw generalizing s before with
  | nil => simp [assignFrom] at heq
  | cons r raw ih =>
      obtain ⟨text, level, line⟩ := r
      rw [assignFrom] at heq
      cases before with
      | nil =>
          obtain ⟨rfl, -⟩ := List.cons.inj heq
          exact (slugFor_spec (hskips _)).1
      | cons b before =>
          obtain ⟨rfl, htail⟩ := List.cons.inj heq
          have hrest := ih (hskips.next _) htail
          simpa only [List.map_cons, List.reverse_cons, List.append_assoc,
            List.singleton_append] using hrest

theorem nodup_assignFrom (raw : List RawHeading) {s : SlugState} (hskips : Skips s) :
    ((assignFrom linkText s raw).map Heading.slug).Nodup ∧
      ∀ h ∈ assignFrom linkText s raw, h.slug ∉ s.assigned := by
  induction raw generalizing s with
  | nil => exact ⟨List.nodup_nil, fun h hh => absurd hh List.not_mem_nil⟩
  | cons r raw ih =>
      obtain ⟨text, level, line⟩ := r
      obtain ⟨hnodup, hfresh⟩ := ih (hskips.next (baseOf linkText text))
      rw [assignFrom]
      refine ⟨List.nodup_cons.mpr ⟨fun hmem => ?_, hnodup⟩, fun h hh => ?_⟩
      · obtain ⟨h, hh, hslug⟩ := List.mem_map.mp hmem
        exact hfresh h hh (hslug ▸ List.mem_cons_self)
      · rcases List.mem_cons.mp hh with rfl | hh
        · exact (slugFor_spec (hskips _)).1.1
        · exact fun hmem => hfresh h hh (List.mem_cons_of_mem _ hmem)

theorem nodup_slugs (linkText : List Char → List Char) (raw : List RawHeading) :
    ((assignHeadingSlugs linkText raw).map Heading.slug).Nodup :=
  (nodup_assignFrom raw skips_empty).1

theorem map_assignHeadingSlugs (linkText : List Char → List Char) (raw : List RawHeading) :
    ((assignHeadingSlugs linkText raw).map fun h => (h.text, h.level, h.line)) = raw := by
  have hraw : ∀ (raw : List RawHeading) (s : SlugState),
      ((assignFrom linkText s raw).map fun h => (h.text, h.level, h.line)) = raw := by
    intro raw
    induction raw with
    | nil => exact fun s => rfl
    | cons r raw ih => exact fun s => congrArg (r :: ·) (ih _)
  exact hraw raw _

/-! ## Links to slugs -/

/-- A character that `markdown_slugify` keeps. -/
def Kept (c : Char) : Prop := slugChar c = [c]

instance (c : Char) : Decidable (Kept c) := inferInstanceAs (Decidable (_ = _))

def LowersToKept (text : List Char) : Prop :=
  ∀ c ∈ text, isAlphanumeric c = true → ∀ d ∈ Lowercase.lowerChar c, Kept d

theorem kept_slugify {text : List Char} (h : LowersToKept text) :
    ∀ d ∈ markdownSlugify text, Kept d := by
  intro d hd
  obtain ⟨c, hc, hd⟩ := List.mem_flatMap.mp hd
  rw [slugChar] at hd
  split at hd
  · rename_i halnum
    exact h c hc halnum d hd
  · split at hd
    · obtain rfl := List.mem_singleton.mp hd
      decide +kernel
    · split at hd
      · obtain rfl := List.mem_singleton.mp hd
        decide +kernel
      · cases hd

theorem kept_digit {c : Char} (h : c.isDigit = true) : Kept c := by
  have hall : ∀ n, n < 0x80 → (Char.ofNat n).isDigit = true → Kept (Char.ofNat n) := by
    decide +kernel
  have hlow : c.toNat < 0x80 := by
    rw [Char.isDigit, Bool.and_eq_true, decide_eq_true_eq, decide_eq_true_eq] at h
    have hle : c.toNat ≤ '9'.toNat := h.2
    have hnine : '9'.toNat = 57 := rfl
    omega
  have hone := hall c.toNat hlow
  rw [Char.ofNat_toNat] at hone
  exact hone h

theorem kept_candidate {base : List Char} (h : ∀ d ∈ base, Kept d) (k : Nat) :
    ∀ d ∈ candidate base k, Kept d := by
  intro d hd
  rcases List.mem_append.mp hd with hd | hd
  · exact h d hd
  · rcases List.mem_cons.mp hd with rfl | hd
    · decide +kernel
    · exact kept_digit (Nat.isDigit_of_mem_toDigits (by omega) (by omega) hd)

theorem slugify_kept {slug : List Char} (h : ∀ d ∈ slug, Kept d) : markdownSlugify slug = slug := by
  induction slug with
  | nil => rfl
  | cons c slug ih =>
      rw [markdownSlugify, List.flatMap_cons, h c List.mem_cons_self]
      exact congrArg (c :: ·) (ih fun d hd => h d (List.mem_cons_of_mem _ hd))

theorem not_isAlphanumeric {c : Char} (h : isWhitespace c = true) : isAlphanumeric c = false := by
  have hrows : (alphanumericTable.all fun r =>
      [(9, 0x20), (0x85, 0xA0), (0x1680, 0x1680), (0x2000, 0x205F), (0x3000, 0x3000)].all fun b =>
        Nat.blt b.2 r.1 || Nat.blt r.2 b.1) = true := by
    decide +kernel
  rw [Bool.eq_false_iff]
  intro hal
  obtain ⟨r, hr, hin⟩ := List.any_eq_true.mp hal
  have hrow := List.all_eq_true.mp hrows r hr
  simp only [isWhitespace, Bool.or_eq_true, Bool.and_eq_true, decide_eq_true_eq] at h hin
  simp only [List.all_cons, List.all_nil, Nat.blt_eq, Bool.or_eq_true, Bool.and_eq_true] at hrow
  omega

theorem isWhitespace_of_kept {c : Char} (h : Kept c) : isWhitespace c = false := by
  rw [Bool.eq_false_iff]
  intro hwhite
  rw [Kept, slugChar, not_isAlphanumeric hwhite, if_neg Bool.false_ne_true] at h
  split at h
  · obtain rfl := List.head_eq_of_cons_eq h
    exact absurd hwhite (by decide)
  · split at h
    · obtain rfl := List.head_eq_of_cons_eq h
      exact absurd hwhite (by decide)
    · cases h

theorem markdownTarget_slug {slug : List Char} (hne : slug ≠ []) (h : ∀ d ∈ slug, Kept d)
    (sourceFile : List Char) :
    markdownTarget ('#' :: slug) sourceFile = some (sourceFile ++ ':' :: ':' :: slug) := by
  have hwhite : ∀ d ∈ slug, isWhitespace d = false := fun d hd => isWhitespace_of_kept (h d hd)
  have htrim : trim ('#' :: slug) = '#' :: slug := trim_eq_self fun c hc => by
    rcases List.mem_cons.mp hc with rfl | hc
    · decide
    · exact hwhite c hc
  rw [markdownTarget, htrim]
  refine (if_neg (by simp)).trans ?_
  change (if markdownSlugify (trim slug) = [] then none
    else some (sourceFile ++ ':' :: ':' :: markdownSlugify (trim slug))) = _
  rw [trim_eq_self hwhite, slugify_kept h, if_neg hne]

/-! ## Containers -/

def Opens (filePath : String) (done : List Heading) (stack : List (Int × String)) : Prop :=
  ∀ level, (openFor level stack).head? = (done.reverse.find? fun h => h.level < level).map fun h =>
    (h.level, sectionName filePath h.slug)

theorem openFor_openFor {level level' : Int} (hle : level' ≤ level) (stack : List (Int × String)) :
    openFor level' (openFor level stack) = openFor level' stack := by
  induction stack with
  | nil => rfl
  | cons top stack ih =>
      rw [openFor, openFor, openFor, List.dropWhile_cons]
      split
      · rename_i h
        have hlevel : level ≤ top.1 := of_decide_eq_true h
        rw [List.dropWhile_cons_of_pos (by simp only [decide_eq_true_eq]; omega)]
        exact ih
      · rfl

theorem Opens.push {filePath : String} {done : List Heading} {stack : List (Int × String)}
    (h : Opens filePath done stack) (x : Heading) : Opens filePath (done ++ [x])
      ((x.level, sectionName filePath x.slug) :: openFor x.level stack) := by
  intro level
  rw [List.reverse_append, List.reverse_singleton, List.singleton_append, List.find?_cons]
  by_cases hlt : x.level < level
  · rw [openFor, List.dropWhile_cons_of_neg (by simp only [decide_eq_true_eq]; omega),
      decide_eq_true hlt]
    rfl
  · have hdrop : openFor level ((x.level, sectionName filePath x.slug) :: openFor x.level stack) =
        openFor level (openFor x.level stack) :=
      List.dropWhile_cons_of_pos (by simp only [decide_eq_true_eq]; omega)
    rw [hdrop, openFor_openFor (by omega), h level, decide_eq_false hlt]

def containerOf (filePath : String) (before : List Heading) (h : Heading) : String :=
  match before.reverse.find? fun g => g.level < h.level with
  | some g => sectionName filePath g.slug
  | none => filePath

theorem sectionsFrom_split {filePath : String} {headings before after done : List Heading}
    {h : Heading} {stack : List (Int × String)} (hopens : Opens filePath done stack)
    (heq : headings = before ++ h :: after) :
    (sectionsFrom filePath stack headings)[before.length]? = some (sectionNode filePath h,
      sectionEdge filePath (containerOf filePath (done ++ before) h) h) := by
  induction before generalizing headings done stack with
  | nil =>
      subst heq
      have hcontainer : ((openFor h.level stack).head?.map Prod.snd).getD filePath =
          containerOf filePath done h := by
        rw [hopens h.level, containerOf]
        cases done.reverse.find? fun g => g.level < h.level <;> rfl
      rw [List.append_nil, ← hcontainer]
      rfl
  | cons b before ih =>
      subst heq
      have hrest := ih (hopens.push b) rfl
      rw [List.append_assoc, List.singleton_append] at hrest
      exact hrest

variable (linkText)

/-- Each heading has the first free name of its base, no two have one slug, a link to a slug leads
to its section alone, and each section hangs on the nearest earlier one of a smaller level. -/
theorem headings_spec (raw : List RawHeading) (filePath : String) :
    let headings := assignHeadingSlugs linkText raw
    (headings.map fun h => (h.text, h.level, h.line)) = raw ∧
    (∀ before h after, headings = before ++ h :: after →
      FirstFree (baseOf linkText h.text) (before.map Heading.slug) h.slug) ∧
    (headings.map Heading.slug).Nodup ∧
    (∀ h ∈ headings, LowersToKept (linkText h.text) → h.slug ≠ [] →
      markdownTarget ('#' :: h.slug) filePath.toList =
        some (sectionName filePath h.slug).toList ∧
      ∀ h' ∈ headings, sectionName filePath h'.slug = sectionName filePath h.slug → h' = h) ∧
    ∀ before h after, headings = before ++ h :: after →
      (sectionsFrom filePath [] headings)[before.length]? =
        some (sectionNode filePath h, sectionEdge filePath (containerOf filePath before h) h) := by
  have hfree : ∀ before h after, assignHeadingSlugs linkText raw = before ++ h :: after →
      FirstFree (baseOf linkText h.text) (before.map Heading.slug) h.slug := by
    intro before h after heq
    obtain ⟨hfresh, k, hk, hall⟩ := firstFree_of_assignFrom skips_empty heq
    rw [List.append_nil] at hfresh hall
    exact ⟨fun hmem => hfresh (List.mem_reverse.mpr hmem), k, hk, fun j hj =>
      List.mem_reverse.mp (hall j hj)⟩
  refine ⟨map_assignHeadingSlugs linkText raw, hfree, nodup_slugs linkText raw,
    fun h hh hlower hne => ⟨?_, ?_⟩, ?_⟩
  · obtain ⟨before, after, heq⟩ := List.append_of_mem hh
    obtain ⟨-, k, hk, -⟩ := hfree before h after heq
    have hbase := kept_slugify hlower
    have hkept : ∀ d ∈ h.slug, Kept d := by
      rw [hk]
      cases k with
      | zero => exact hbase
      | succ k => exact kept_candidate hbase (k + 1)
    rw [markdownTarget_slug hne hkept, toList_sectionName]
  · intro h' hh' hname
    have hslug : h'.slug = h.slug := by
      have htext := congrArg String.toList hname
      rw [toList_sectionName, toList_sectionName] at htext
      exact (List.cons.inj (List.cons.inj (List.append_cancel_left htext)).2).2
    exact List.inj_on_of_nodup_map (nodup_slugs linkText raw) hh' hh hslug
  · intro before h after heq
    have hopens : Opens filePath [] [] := fun _ => rfl
    exact sectionsFrom_split hopens heq

end Markdowns

end Dagayn
