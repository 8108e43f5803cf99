import Dagayn.Text

/-!
# Components of a path

`Path::components`, `parent` and `join` on Unix, with a path as the list of its components, and
`normalize_relative_path`, which takes one component back for every `..`, as long as there is one.
A `Place` is where the lexical rules lead from a directory: it counts the steps above the root,
which `normalize_relative_path` forgets (`normalize_join`).
-/

namespace Dagayn

/-- A path relative to the repository, as git and the directory walk spell it. -/
structure RepoPath where
  components : List (List Char)
  nonempty : components ≠ []
  proper : ∀ c ∈ components, c ≠ [] ∧ c ≠ ['.'] ∧ c ≠ ['.', '.'] ∧ '/' ∉ c

def RepoPath.text (p : RepoPath) : List Char := ['/'].intercalate p.components

theorem RepoPath.splitOn_text (p : RepoPath) : p.text.splitOn '/' = p.components :=
  List.splitOn_intercalate '/' (fun c hc => (p.proper c hc).2.2.2) p.nonempty

namespace RelPath

inductive Component where
  | rootDir
  | curDir
  | parentDir
  | normal (part : List Char)
deriving DecidableEq

/-- A piece between two separators; an empty one and a `.` are no components. -/
def pieceOf (piece : List Char) : Option Component :=
  if piece = [] ∨ piece = ['.'] then none
  else if piece = ['.', '.'] then some .parentDir
  else some (.normal piece)

def pieces (text : List Char) : List Component := (text.splitOn '/').filterMap pieceOf

/-- `Path::components`: only the front of a path that has no root may be a `.`. -/
def components (text : List Char) : List Component :=
  if text.head? = some '/' then .rootDir :: pieces text
  else if (text.splitOn '/').head? = some ['.'] then .curDir :: pieces text
  else pieces text

def parent (path : List Component) : Option (List Component) :=
  match path.getLast? with
  | none => none
  | some .rootDir => none
  | some _ => some path.dropLast

def join (base : List Component) (text : List Char) : List Component :=
  if text.head? = some '/' then components text
  else if base = [] then components text
  else base ++ pieces text

/-- A round of the loop of `normalize_relative_path`. -/
def normalizeStep (parts : List (List Char)) : Component → List (List Char)
  | .curDir => parts
  | .parentDir => parts.dropLast
  | .normal part => parts ++ [part]
  | .rootDir => parts ++ [['/']]

def normalizeRelativePath (path : List Component) : List Char :=
  List.intercalate ['/'] (path.foldl normalizeStep [])

/-! ## Places -/

/-- Some steps above the root, and from there down: `../../a/b` has two steps and two names. -/
structure Place where
  ups : Nat
  names : List (List Char)
deriving DecidableEq

def Place.step (p : Place) (piece : List Char) : Place :=
  if piece = [] ∨ piece = ['.'] then p
  else if piece = ['.', '.'] then
    if p.names = [] then { p with ups := p.ups + 1 } else { p with names := p.names.dropLast }
  else { p with names := p.names ++ [piece] }

def Place.walk (p : Place) (text : List Char) : Place := (text.splitOn '/').foldl Place.step p

/-- The path of a place that is not above the root; the root itself is the empty path. -/
def Place.text (p : Place) : List Char := List.intercalate ['/'] p.names

theorem foldl_pieces (p : Place) (text : List Char) :
    (pieces text).foldl normalizeStep p.names = (p.walk text).names := by
  rw [pieces, Place.walk]
  induction text.splitOn '/' generalizing p with
  | nil => rfl
  | cons piece rest ih =>
      have hstep : ((pieceOf piece).toList.foldl normalizeStep p.names) = (p.step piece).names := by
        rw [pieceOf, Place.step]
        split
        · rfl
        · split
          · split
            · rename_i hnil
              change p.names.dropLast = p.names
              rw [hnil]
              rfl
            · rfl
          · rfl
      rw [List.foldl_cons, ← ih, ← hstep, List.filterMap_cons]
      cases pieceOf piece <;> rfl

theorem foldl_components {text : List Char} (h : text.head? ≠ some '/') (p : Place) :
    (components text).foldl normalizeStep p.names = (p.walk text).names := by
  rw [← foldl_pieces, components, if_neg h]
  split <;> rfl

theorem foldl_join (base : List Component) {text : List Char} (h : text.head? ≠ some '/')
    {p : Place} (hbase : base.foldl normalizeStep [] = p.names) :
    (join base text).foldl normalizeStep [] = (p.walk text).names := by
  rw [join, if_neg h]
  split
  · rename_i hnil
    rw [hnil] at hbase
    rw [← foldl_components h, ← hbase]
    rfl
  · rw [List.foldl_append, hbase, foldl_pieces]

/-! ## Files of the repository -/

def dirOf (file : RepoPath) : Place := ⟨0, file.components.dropLast⟩

theorem pieces_text (file : RepoPath) : pieces file.text = file.components.map .normal := by
  rw [pieces, file.splitOn_text]
  have hall := file.proper
  generalize file.components = names at hall ⊢
  induction names with
  | nil => rfl
  | cons c rest ih =>
      obtain ⟨hne, hdot, hdots, -⟩ := hall c List.mem_cons_self
      have hpiece : pieceOf c = some (.normal c) := by
        rw [pieceOf, if_neg (not_or.mpr ⟨hne, hdot⟩), if_neg hdots]
      rw [List.filterMap_cons, hpiece, List.map_cons]
      exact congrArg (_ :: ·) (ih fun d hd => hall d (List.mem_cons_of_mem _ hd))

theorem components_text (file : RepoPath) :
    components file.text = file.components.map .normal := by
  obtain ⟨first, rest, hcons⟩ := List.exists_cons_of_ne_nil file.nonempty
  obtain ⟨hne, hdot, -, hslash⟩ := file.proper first (by rw [hcons]; exact List.mem_cons_self)
  have hroot : file.text.head? ≠ some '/' := by
    obtain ⟨c, first', rfl⟩ := List.exists_cons_of_ne_nil hne
    have htext : file.text.head? = some c := by
      rw [RepoPath.text, hcons]
      cases rest <;> rfl
    rw [htext]
    exact fun heq => hslash (Option.some.inj heq ▸ List.mem_cons_self)
  have hfront : (file.text.splitOn '/').head? ≠ some ['.'] := by
    rw [file.splitOn_text, hcons]
    exact fun heq => hdot (Option.some.inj heq)
  rw [components, if_neg hroot, if_neg hfront, pieces_text]

theorem parent_components (file : RepoPath) :
    parent (components file.text) = some (file.components.dropLast.map .normal) := by
  obtain ⟨front, last, hlast⟩ := (List.eq_nil_or_concat' _).resolve_left file.nonempty
  rw [components_text, hlast, List.map_append, parent]
  simp

theorem foldl_normal (parts names : List (List Char)) :
    (names.map Component.normal).foldl normalizeStep parts = parts ++ names := by
  induction names generalizing parts with
  | nil => exact (List.append_nil parts).symm
  | cons name names ih =>
      rw [List.map_cons, List.foldl_cons, ih]
      exact List.append_assoc parts [name] names

theorem normalize_join (file : RepoPath) {text : List Char} (h : text.head? ≠ some '/') :
    normalizeRelativePath (join (file.components.dropLast.map .normal) text) =
      ((dirOf file).walk text).text := by
  rw [normalizeRelativePath, @foldl_join _ _ h (dirOf file) (foldl_normal [] _)]
  rfl

end RelPath

end Dagayn
