import Dagayn.MarkdownHeadings

/-!
# Targets relative to a file

Links (`markdown_target`), directives (`directive_target`) and inclusions (`resolve_import_path`)
name a file relative to the directory of another. All three end in `normalize_relative_path`, so
that a target inside the repository gets its lexical normal form, and one above the root the rest
of its path below the root, which may be a file of the repository (`targets_iff`).
`normalize_within_repo` has the same loop and gives no path there.
-/

namespace Dagayn

namespace RelPath

/-! ## Directives -/

def documentationSlugify (text : List Char) : List Char := (trim text).flatMap Markdowns.slugChar

inductive DirectiveTarget where
  | direct (target : List Char)
  | unresolved (symbol target : List Char)
deriving DecidableEq

def startsRelative (path : List Char) : Bool :=
  "./".toList.isPrefixOf path || "../".toList.isPrefixOf path

def normalizeDirectivePath (path sourceFile : List Char) : List Char :=
  if startsRelative path then
    normalizeRelativePath (join ((parent (components sourceFile)).getD []) path)
  else normalizeRelativePath (components path)

def fileSuffixes : List String :=
  [".md", ".markdown", ".py", ".tf", ".tfvars", ".rs", ".js", ".ts", ".tsx", ".jsx"]

def looksLikeFileTarget (target : List Char) : Bool :=
  '/' ∈ target || fileSuffixes.any fun suffix => suffix.toList.isSuffixOf target

def directiveTarget (rawTarget sourceFile : List Char) : DirectiveTarget :=
  let target := trim rawTarget
  if ["http://", "https://", "mailto:", "tel:"].any fun scheme => scheme.toList.isPrefixOf target
  then .direct target
  else
    match target with
    | '#' :: anchor => .direct (sourceFile ++ "::".toList ++ documentationSlugify anchor)
    | _ =>
        match splitFirst "::".toList target with
        | some (path, symbol) =>
            .direct (normalizeDirectivePath path sourceFile ++ "::".toList ++ symbol)
        | none =>
            match splitFirst ['#'] target with
            | some (path, anchor) =>
                .direct (normalizeDirectivePath path sourceFile ++ "::".toList ++
                  documentationSlugify anchor)
            | none =>
                if startsRelative target || looksLikeFileTarget target then
                  .direct (normalizeDirectivePath target sourceFile)
                else .unresolved target ("<unresolved:".toList ++ target ++ ['>'])

/-! ## Inclusions -/

theorem length_parent {path dir : List Component} (h : parent path = some dir) :
    dir.length < path.length := by
  rw [parent] at h
  split at h
  · cases h
  · cases h
  · rename_i last _ hlast
    obtain rfl := Option.some.inj h
    have hne : path ≠ [] := fun heq => by simp [heq] at hlast
    rw [List.length_dropLast]
    exact Nat.sub_lt (List.length_pos_iff.mpr hne) Nat.one_pos

section Search

variable (candidateExists : List Component → Bool) (literal : List Char)
  (searchSubdirs : List (List Char)) (walkUp : Bool)

/-- The loop of `resolve_import_path`. -/
def searchFrom (current : List Component) : Option (List Char) :=
  let candidate := join current literal
  if candidateExists candidate then some (normalizeRelativePath candidate)
  else
    match (searchSubdirs.map fun subdir => join (join current subdir) literal).find?
        candidateExists with
    | some candidate => some (normalizeRelativePath candidate)
    | none =>
        match _h : parent current with
        | some dir => if walkUp then searchFrom dir else none
        | none => none
termination_by current.length
decreasing_by exact length_parent _h

/-- `resolve_import_path`; `candidateExists` is `import_candidate_exists`. -/
def resolveImportPath (filePath : List Char) : Option (List Char) :=
  if literal = [] ∨ literal.head? = some '/' then none
  else (parent (components filePath)).bind (searchFrom candidateExists literal searchSubdirs walkUp)

/-- The directories that are searched from a directory on, with their places. -/
def searchDirs (names : List (List Char)) : List (List Component × Place) :=
  (names.map .normal, ⟨0, names⟩) ::
    (searchSubdirs.map fun subdir =>
      (join (names.map .normal) subdir, Place.walk ⟨0, names⟩ subdir)) ++
    if _h : walkUp ∧ names ≠ [] then searchDirs names.dropLast else []
termination_by names.length
decreasing_by
  rw [List.length_dropLast]
  exact Nat.sub_lt (List.length_pos_iff.mpr _h.2) Nat.one_pos

end Search

/-! ## What the three give -/

/-- The part of a link in front of its anchor. -/
def linkPath (raw : List Char) : List Char :=
  ((splitFirst ['#'] (trim raw)).map Prod.fst).getD (trim raw)

def linkAnchor (raw : List Char) : List Char :=
  match splitFirst ['#'] (trim raw) with
  | none => []
  | some (_, behind) =>
      let slug := Markdowns.markdownSlugify (trim behind)
      if slug = [] then [] else "::".toList ++ slug

/-- A link to another file that is relative to its own. -/
def IsRelativeLink (raw : List Char) : Prop :=
  trim raw ≠ [] ∧ (trim raw).head? ≠ some '/' ∧ (trim raw).head? ≠ some '#'

theorem head?_of_splitFirst {sep text before behind : List Char}
    (h : splitFirst sep text = some (before, behind)) (hne : before ≠ []) :
    before.head? = text.head? := by
  cases text with
  | nil => cases h
  | cons c rest =>
      rw [splitFirst] at h
      split at h
      · obtain ⟨rfl, -⟩ := Prod.mk.inj (Option.some.inj h)
        exact absurd rfl hne
      · obtain ⟨p, -, hp⟩ := Option.map_eq_some_iff.mp h
        obtain ⟨rfl, -⟩ := Prod.mk.inj hp
        rfl

theorem linkPath_head {raw : List Char} (h : IsRelativeLink raw) :
    (linkPath raw).head? ≠ some '/' := by
  rw [linkPath]
  cases hsplit : splitFirst ['#'] (trim raw) with
  | none => exact h.2.1
  | some p =>
      by_cases hne : p.1 = []
      · simp [hne]
      · exact (@head?_of_splitFirst _ _ _ p.2 hsplit hne).symm ▸ h.2.1

theorem markdownTarget_relative {raw : List Char} (h : IsRelativeLink raw) (source : RepoPath) :
    Markdowns.markdownTarget raw source.text =
      some (((dirOf source).walk (linkPath raw)).text ++ linkAnchor raw) := by
  have hnorm := normalize_join source (linkPath_head h)
  obtain ⟨hne, hslash, hhash⟩ := h
  rw [Markdowns.markdownTarget]
  refine (if_neg (not_or.mpr ⟨hne, hslash⟩)).trans ?_
  split
  · rename_i anchor heq
    rw [heq] at hhash
    exact absurd rfl hhash
  · rw [parent_components, Option.getD_some]
    dsimp only
    rw [linkPath] at hnorm ⊢
    rw [linkAnchor, hnorm]
    cases splitFirst ['#'] (trim raw) with
    | none => simp
    | some p =>
        dsimp only
        split
        · simp
        · simp

/-- The part of a directive's target in front of its symbol or anchor. -/
def directivePath (raw : List Char) : List Char :=
  match splitFirst "::".toList (trim raw) with
  | some (path, _) => path
  | none => ((splitFirst ['#'] (trim raw)).map Prod.fst).getD (trim raw)

/-- What a directive adds to the path of its file. -/
def directiveRest (raw : List Char) : List Char :=
  match splitFirst "::".toList (trim raw) with
  | some (_, symbol) => "::".toList ++ symbol
  | none =>
      match splitFirst ['#'] (trim raw) with
      | some (_, anchor) => "::".toList ++ documentationSlugify anchor
      | none => []

theorem startsRelative_cases {text : List Char} (h : startsRelative text = true) :
    (∃ rest, text = '.' :: '/' :: rest) ∨ ∃ rest, text = '.' :: '.' :: '/' :: rest := by
  rw [startsRelative, Bool.or_eq_true, List.isPrefixOf_iff_prefix, List.isPrefixOf_iff_prefix] at h
  rcases h with ⟨rest, rfl⟩ | ⟨rest, rfl⟩
  · exact .inl ⟨rest, rfl⟩
  · exact .inr ⟨rest, rfl⟩

theorem startsRelative_splitFirst {c : Char} {sep text before behind : List Char} (hdot : c ≠ '.')
    (hslash : c ≠ '/') (h : splitFirst (c :: sep) text = some (before, behind))
    (hstart : startsRelative text = true) : startsRelative before = true := by
  have hskip : ∀ {d : Char} {rest before : List Char}, c ≠ d →
      splitFirst (c :: sep) (d :: rest) = some (before, behind) →
        ∃ before', before = d :: before' ∧ splitFirst (c :: sep) rest = some (before', behind) := by
    intro d rest before hd hsplit
    rw [splitFirst, if_neg (by simp [hd])] at hsplit
    obtain ⟨p, hp, heq⟩ := Option.map_eq_some_iff.mp hsplit
    obtain ⟨rfl, rfl⟩ := Prod.mk.inj heq
    exact ⟨p.1, rfl, hp⟩
  rcases startsRelative_cases hstart with ⟨rest, rfl⟩ | ⟨rest, rfl⟩
  · obtain ⟨first, rfl, hfirst⟩ := hskip hdot h
    obtain ⟨second, rfl, -⟩ := hskip hslash hfirst
    rfl
  · obtain ⟨first, rfl, hfirst⟩ := hskip hdot h
    obtain ⟨second, rfl, hsecond⟩ := hskip hdot hfirst
    obtain ⟨third, rfl, -⟩ := hskip hslash hsecond
    rfl

theorem directivePath_starts {raw : List Char} (h : startsRelative (trim raw) = true) :
    startsRelative (directivePath raw) = true := by
  rw [directivePath]
  split
  · rename_i hsplit
    exact startsRelative_splitFirst (by decide) (by decide) hsplit h
  · cases hsplit : splitFirst ['#'] (trim raw) with
    | none => exact h
    | some p => exact startsRelative_splitFirst (by decide) (by decide) hsplit h

theorem normalizeDirectivePath_relative {path : List Char} (h : startsRelative path = true)
    (source : RepoPath) :
    normalizeDirectivePath path source.text = ((dirOf source).walk path).text := by
  have hhead : path.head? ≠ some '/' := by
    rcases startsRelative_cases h with ⟨rest, rfl⟩ | ⟨rest, rfl⟩ <;> exact fun heq => by cases heq
  rw [normalizeDirectivePath, if_pos h, parent_components, Option.getD_some, normalize_join _ hhead]

theorem directiveTarget_relative {raw : List Char} (h : startsRelative (trim raw) = true)
    (source : RepoPath) :
    directiveTarget raw source.text =
      .direct (((dirOf source).walk (directivePath raw)).text ++ directiveRest raw) := by
  have hnorm := normalizeDirectivePath_relative (directivePath_starts h) source
  have hscheme : (["http://", "https://", "mailto:", "tel:"].any fun scheme =>
      scheme.toList.isPrefixOf (trim raw)) = false := by
    rcases startsRelative_cases h with ⟨rest, heq⟩ | ⟨rest, heq⟩ <;> rw [heq] <;> rfl
  rw [directiveTarget]
  refine (if_neg (by rw [hscheme]; exact Bool.false_ne_true)).trans ?_
  split
  · rename_i anchor heq
    rw [heq] at h
    cases h
  · rw [← hnorm, directivePath, directiveRest]
    cases hsymbol : splitFirst "::".toList (trim raw) with
    | some p => exact congrArg _ (List.append_assoc _ _ _)
    | none =>
        cases hanchor : splitFirst ['#'] (trim raw) with
        | some p => exact congrArg _ (List.append_assoc _ _ _)
        | none =>
            dsimp only
            rw [h, Bool.true_or, if_pos rfl, List.append_nil]
            rfl

section Search

variable (candidateExists : List Component → Bool) {literal : List Char}
  {searchSubdirs : List (List Char)} (walkUp : Bool)

theorem searchDirs_normal (hsubdirs : ∀ subdir ∈ searchSubdirs, subdir.head? ≠ some '/')
    (names : List (List Char)) : ∀ d ∈ searchDirs searchSubdirs walkUp names,
      d.1.foldl normalizeStep [] = d.2.names := by
  fun_induction searchDirs searchSubdirs walkUp names with
  | case1 names ih =>
      have hnames : (names.map Component.normal).foldl normalizeStep [] =
          (Place.mk 0 names).names := foldl_normal [] names
      intro d hd
      rcases List.mem_cons.mp hd with rfl | hd
      · exact hnames
      · rcases List.mem_append.mp hd with hd | hd
        · obtain ⟨subdir, hsubdir, rfl⟩ := List.mem_map.mp hd
          exact foldl_join _ (hsubdirs subdir hsubdir) hnames
        · split at hd
          · rename_i hup
            exact ih hup d hd
          · cases hd

theorem parent_normal (names : List (List Char)) : parent (names.map Component.normal) =
    if names = [] then none else some (names.dropLast.map .normal) := by
  rcases List.eq_nil_or_concat' names with rfl | ⟨front, last, rfl⟩
  · rfl
  · simp [parent]

theorem searchFrom_eq (names : List (List Char)) :
    searchFrom candidateExists literal searchSubdirs walkUp (names.map .normal) =
      ((searchDirs searchSubdirs walkUp names).find? fun d =>
        candidateExists (join d.1 literal)).map fun d =>
          normalizeRelativePath (join d.1 literal) := by
  fun_induction searchDirs searchSubdirs walkUp names with
  | case1 names ih =>
      rw [searchFrom, List.cons_append, List.find?_cons]
      cases hfirst : candidateExists (join (names.map .normal) literal) with
      | true => rw [if_pos rfl]; rfl
      | false =>
          rw [if_neg Bool.false_ne_true, List.find?_append, List.find?_map, List.find?_map]
          dsimp only [Function.comp_def]
          cases searchSubdirs.find? fun subdir =>
              candidateExists (join (join (names.map .normal) subdir) literal) with
          | some subdir => rfl
          | none =>
              dsimp only [Option.map_none, Option.none_or]
              by_cases hup : walkUp = true ∧ names ≠ []
              · have hparent := (parent_normal names).trans (if_neg hup.2)
                rw [dif_pos hup]
                split
                · rename_i dir heq
                  rw [hparent] at heq
                  rw [← Option.some.inj heq, if_pos hup.1]
                  exact ih hup
                · rename_i heq
                  rw [hparent] at heq
                  cases heq
              · rw [dif_neg hup]
                split
                · rename_i dir heq
                  rw [parent_normal] at heq
                  split at heq
                  · cases heq
                  · rename_i hnames
                    rw [if_neg fun hw => hup ⟨hw, hnames⟩]
                    rfl
                · rfl

/-- The search gives the place of the target in the first directory that has a file for it. -/
theorem resolveImportPath_eq (hne : literal ≠ []) (hhead : literal.head? ≠ some '/')
    (hsubdirs : ∀ subdir ∈ searchSubdirs, subdir.head? ≠ some '/') (source : RepoPath) :
    resolveImportPath candidateExists literal searchSubdirs walkUp source.text =
      ((searchDirs searchSubdirs walkUp source.components.dropLast).find? fun d =>
        candidateExists (join d.1 literal)).map fun d => (d.2.walk literal).text := by
  rw [resolveImportPath, if_neg (not_or.mpr ⟨hne, hhead⟩), parent_components, Option.bind_some,
    searchFrom_eq]
  cases hfind : (searchDirs searchSubdirs walkUp source.components.dropLast).find? fun d =>
      candidateExists (join d.1 literal) with
  | none => rfl
  | some d =>
      have hd := searchDirs_normal walkUp hsubdirs _ d (List.mem_of_find?_eq_some hfind)
      rw [Option.map_some, Option.map_some, normalizeRelativePath, foldl_join d.1 hhead hd]
      rfl

end Search

/-! ## Paths of the repository -/

/-- Inside the repository the path is that of the place, and above the root it is no file's. -/
def Meets (files : Set (List Char)) (place : Place) (path : List Char) : Prop :=
  (place.ups = 0 → path = place.text) ∧ (0 < place.ups → path ∉ files)

/-- A place above the root whose names are those of no file. -/
def Clear (files : Set (List Char)) (place : Place) : Prop := 0 < place.ups → place.text ∉ files

theorem meets_iff {files : Set (List Char)} {place : Place} :
    Meets files place place.text ↔ Clear files place :=
  ⟨And.right, fun h => ⟨fun _ => rfl, h⟩⟩

variable (files : Set (List Char)) (source : RepoPath)

/-- Links, directives and inclusions give the lexical normal form inside the repository; above the
root they give what is left of it, which is to be no file of the repository. -/
theorem targets_iff :
    (∀ raw, IsRelativeLink raw →
      ((∃ path, Markdowns.markdownTarget raw source.text = some (path ++ linkAnchor raw) ∧
          Meets files ((dirOf source).walk (linkPath raw)) path) ↔
        Clear files ((dirOf source).walk (linkPath raw)))) ∧
    (∀ raw, startsRelative (trim raw) = true →
      ((∃ path, directiveTarget raw source.text = .direct (path ++ directiveRest raw) ∧
          Meets files ((dirOf source).walk (directivePath raw)) path) ↔
        Clear files ((dirOf source).walk (directivePath raw)))) ∧
    ∀ (candidateExists : List Component → Bool) (literal : List Char)
      (searchSubdirs : List (List Char)) (walkUp : Bool), literal ≠ [] →
      literal.head? ≠ some '/' → (∀ subdir ∈ searchSubdirs, subdir.head? ≠ some '/') →
      match (searchDirs searchSubdirs walkUp source.components.dropLast).find? fun d =>
        candidateExists (join d.1 literal) with
      | none => resolveImportPath candidateExists literal searchSubdirs walkUp source.text = none
      | some d =>
          (∃ path, resolveImportPath candidateExists literal searchSubdirs walkUp source.text =
              some path ∧ Meets files (d.2.walk literal) path) ↔
            Clear files (d.2.walk literal) := by
  refine ⟨fun raw h => ?_, fun raw h => ?_, fun candidateExists literal searchSubdirs walkUp hne
    hhead hsubdirs => ?_⟩
  · rw [markdownTarget_relative h, ← meets_iff]
    constructor
    · rintro ⟨path, heq, hmeets⟩
      rwa [← List.append_cancel_right (Option.some.inj heq)] at hmeets
    · exact fun hmeets => ⟨_, rfl, hmeets⟩
  · rw [directiveTarget_relative h, ← meets_iff]
    constructor
    · rintro ⟨path, heq, hmeets⟩
      rwa [← List.append_cancel_right (DirectiveTarget.direct.inj heq)] at hmeets
    · exact fun hmeets => ⟨_, rfl, hmeets⟩
  · have hresolve := resolveImportPath_eq candidateExists walkUp hne hhead hsubdirs source
    split
    · rename_i hfind
      rw [hresolve, hfind]
      rfl
    · rename_i d hfind
      rw [hresolve, hfind, ← meets_iff]
      constructor
      · rintro ⟨path, heq, hmeets⟩
        rwa [← Option.some.inj heq] at hmeets
      · exact fun hmeets => ⟨_, rfl, hmeets⟩

def guidePage : RepoPath where
  components := ["docs".toList, "guide".toList, "page.md".toList]
  nonempty := List.cons_ne_nil _ _
  proper := forall_mem_of_all (by decide)

/-- Three steps up from there lead above the root, and to a file at the root by all three. -/
theorem targets_above :
    let target := "../../../README.md".toList
    let outside := join [.normal "docs".toList, .normal "guide".toList] target
    let readme := "README.md".toList
    ((dirOf guidePage).walk target).ups = 1 ∧
      Markdowns.markdownTarget target guidePage.text = some readme ∧
      directiveTarget target guidePage.text = .direct readme ∧
      resolveImportPath (· = outside) target [] false guidePage.text = some readme ∧
      ¬ Meets {readme} ((dirOf guidePage).walk target) readme := by
  refine ⟨by decide +kernel, by decide +kernel, by decide +kernel, by decide +kernel,
    fun h => h.2 (by decide +kernel) rfl⟩

end RelPath

end Dagayn
