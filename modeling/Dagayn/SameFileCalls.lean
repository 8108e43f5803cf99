import Dagayn.ParsedFile

/-!
# Calls within a file

`resolve_rust_call_targets` binds the calls and references of one parsed file, of any
language, to the declarations of the same file. A bare name means what is declared in the
caller itself, then what is declared at the top level, then a member of a scope around the
caller: the functions around the caller come behind the top level. `binds_iff` says for which
calls this is the order of the scopes.
-/

namespace Dagayn

namespace SameFileCalls

/-! ## Text -/

/-- `str::strip_prefix`. -/
def stripFront (front text : String) : Option String :=
  if front.toList.isPrefixOf text.toList then
    some (String.ofList (text.toList.drop front.toList.length))
  else none

def rsplitOnce (sep text : String) : Option (String × String) :=
  (afterLast sep.toList text.toList).map fun rest =>
    (String.ofList (text.toList.take (text.toList.length - rest.length - sep.toList.length)),
      String.ofList rest)

/-- The texts in front of the dots, read from the last one; here a text stands reversed. -/
def dotFronts : List Char → List String
  | [] => []
  | '.' :: front =>
      if front.isEmpty then dotFronts front else String.ofList front.reverse :: dotFronts front
  | _ :: front => dotFronts front

theorem isSome_splitFirst {sep : List Char} (hsep : sep ≠ []) (back : List Char) :
    ∀ front : List Char, (splitFirst sep (front ++ (sep ++ back))).isSome = true
  | [] => by
      cases h : sep ++ back with
      | nil => exact absurd (List.append_eq_nil_iff.mp h).1 hsep
      | cons c rest =>
          have hpre : sep.isPrefixOf (c :: rest) = true :=
            List.isPrefixOf_iff_prefix.mpr (h ▸ List.prefix_append _ _)
          simp [splitFirst, hpre]
  | c :: front => by
      rw [List.cons_append, splitFirst]
      split
      · rfl
      · rw [Option.isSome_map]
        exact isSome_splitFirst hsep back front

theorem stripFront_append (front back : String) : stripFront front (front ++ back) = some back := by
  have hpre : front.toList.isPrefixOf (front ++ back).toList = true := by
    rw [List.isPrefixOf_iff_prefix, String.toList_append]
    exact List.prefix_append _ _
  rw [stripFront, if_pos hpre, String.toList_append, List.drop_left, String.ofList_toList]

theorem ne_empty_of_mem_dotFronts {s : String} {text : List Char} (h : s ∈ dotFronts text) :
    s ≠ "" := by
  fun_induction dotFronts text with
  | case1 => exact absurd h List.not_mem_nil
  | case2 _ _ ih => exact ih h
  | case3 front hne ih =>
      rcases List.mem_cons.mp h with rfl | h
      · intro hempty
        have hnil : front.reverse = [] := by simpa using congrArg String.toList hempty
        simp_all
      · exact ih h
  | case4 _ _ _ ih => exact ih h

/-! ## The symbols of a file -/

structure SourceFile where
  filePath : String
  nodes : List ParsedNode

/-- A declaration of a name: the owner it is declared in and its qualified name. -/
structure Symbol where
  parent : Option String
  qualified : String

namespace SourceFile

variable (f : SourceFile)

def ownerPath (node : ParsedNode) : String :=
  match node.parentName with
  | some parent => parent ++ "." ++ node.name
  | none => node.name

/-- JavaScript object-literal containers (`const api = { get() {} }`): their members are
reachable only as `api.get`, never by a bare name. -/
def objectOwners : List String :=
  (f.nodes.filter fun node => node.kind = .cls &&
    node.extra.get "type_role" == some (.str "object"))
    |>.map ownerPath

def declares (node : ParsedNode) : Bool :=
  node.kind = .function || node.kind = .cls || node.kind = .type || node.kind = .test ||
    node.kind = .docSection

/-- `symbols.get(name)`; a name without an entry has no candidates. -/
def candidates (name : String) : List Symbol :=
  (f.nodes.filter fun node => declares node && node.name = name).map fun node =>
    ⟨node.parentName, qualify f.filePath node.name node.parentName⟩

/-! ## The resolution -/

def sameFileUnqualifiedName (target : String) : Option String :=
  if !hasScope target then some target
  else
    ((stripFront f.filePath target).bind (stripFront "::")).bind fun rest =>
      if rest.toList.contains '.' then none else some rest

def callerOwn (caller : String) : Option String :=
  (stripFront f.filePath caller).bind (stripFront "::")

/-- `caller_scopes`: enclosing scopes of `caller`, innermost first. -/
def callerScopes (caller : String) : List String :=
  match f.callerOwn caller with
  | some rest => dotFronts rest.toList.reverse
  | none => []

def rootIsLocalContainer (typeName : String) : Bool :=
  match splitOnce "." typeName with
  | some (root, _) => (f.candidates root).any fun symbol => symbol.parent.isNone
  | none => true

def resolveTypeScopedCall (target : String) : Option String :=
  if f.filePath.toList.isPrefixOf target.toList then none
  else
    (rsplitOnce "::" target).bind fun (typeName, method) =>
      if typeName = "" || method = "" || hasScope typeName || typeName.toList.contains '/' then none
      else if !f.rootIsLocalContainer typeName then none
      else
        match (f.candidates method).find? fun symbol => symbol.parent = some typeName with
        | some symbol => some symbol.qualified
        | none =>
            -- A bare type bound inside a namespace is accepted where one owner ends so.
            match (f.candidates method).filter fun symbol => symbol.parent.any fun parent =>
                ('.' :: typeName.toList).isSuffixOf parent.toList with
            | [symbol] => some symbol.qualified
            | _ => none

def inOwner (symbols : List Symbol) (owner : String) : Option Symbol :=
  symbols.find? fun symbol => symbol.parent = some owner

/-- `pick_method_for_caller`: nearest owner first. -/
def pickMethodForCaller (caller : String) (methods : List Symbol) : Option String :=
  match (f.callerScopes caller).findSome? (inOwner methods) with
  | some symbol => some symbol.qualified
  | none => methods.head?.map Symbol.qualified

def topLevel (symbols : List Symbol) : Option Symbol :=
  symbols.find? fun symbol => symbol.parent.isNone

def methods (symbols : List Symbol) : List Symbol :=
  symbols.filter fun symbol => symbol.parent.any fun parent => parent ∉ f.objectOwners

def resolveSameFileCallTarget (caller target : String) : Option String :=
  match f.resolveTypeScopedCall target with
  | some resolved => some resolved
  | none =>
      (f.sameFileUnqualifiedName target).bind fun name =>
        let candidates := f.candidates name
        match (f.callerOwn caller).bind (inOwner candidates) with
        | some symbol => some symbol.qualified
        | none =>
            match topLevel candidates with
            | some symbol => if hasScope target then none else some symbol.qualified
            | none => f.pickMethodForCaller caller (f.methods candidates)

def isExternalCall (extra : Json) : Bool := extra.get "external" == some (.bool true)

/-- A call or reference that the extractor has not bound to something outside the file. -/
def mayBind (edge : ParsedEdge) : Bool :=
  (edge.kind = .calls || edge.kind = .references) &&
    !(edge.extra.get "receiver_unknown" == some (.bool true)) &&
      (edge.extra.get "receiver_type").isNone && (edge.extra.get "receiver").isNone &&
        !isExternalCall edge.extra

def rewrite (edge : ParsedEdge) : ParsedEdge :=
  if mayBind edge then
    match f.resolveSameFileCallTarget edge.source edge.target with
    | some target => { edge with target := target }
    | none => edge
  else edge

def resolveRustCallTargets (edges : List ParsedEdge) : List ParsedEdge := edges.map f.rewrite

/-! ## Lexical scoping -/

def isFunctionPath (path : String) : Bool :=
  f.nodes.any fun node => (node.kind = .function || node.kind = .test) && ownerPath node = path

def ownScope (caller : String) : List String :=
  (f.callerOwn caller).toList.filter (· ∉ f.objectOwners)

def ownersAround (caller : String) : List String :=
  (f.callerScopes caller).filter (· ∉ f.objectOwners)

def functionsAround (caller : String) : List String :=
  (f.ownersAround caller).filter f.isFunctionPath

/-- What the name means at the caller: a declaration in the caller or the innermost function
around it, one at the top level, or a member of the nearest owner. -/
def lexicalTarget (caller name : String) : Option Symbol :=
  let symbols := f.candidates name
  ((f.ownScope caller ++ f.functionsAround caller).findSome? (inOwner symbols)).or <|
    (topLevel symbols).or <| (f.ownersAround caller).findSome? (inOwner symbols)

/-- A call of `name` goes to what its scope says, and stays as it is where no scope declares
the name. -/
structure Scoped (caller name target : String) : Prop where
  binds : target = ((f.lexicalTarget caller name).map Symbol.qualified).getD name
  noObject : ∀ owner ∈ f.objectOwners, owner ≠ "" → target ≠ qualify f.filePath name (some owner)

/-- The caller is no object literal that has a member of the name (one without a name may have
it where the top level has it too); where not the caller but a function around it declares the
name, this function is the nearest owner that does, and nothing at the top level has the name;
and a name that no scope declares is no member anywhere in the file. -/
structure InOrder (caller name : String) : Prop where
  noObject : ∀ own, f.callerOwn caller = some own → own ∈ f.objectOwners →
    (own = "" → topLevel (f.candidates name) = none) → inOwner (f.candidates name) own = none
  around : (f.ownScope caller).findSome? (inOwner (f.candidates name)) = none →
    ∀ symbol, (f.functionsAround caller).findSome? (inOwner (f.candidates name)) = some symbol →
      topLevel (f.candidates name) = none ∧
        (f.ownersAround caller).findSome? (inOwner (f.candidates name)) = some symbol
  members : f.lexicalTarget caller name = none → f.methods (f.candidates name) = []

/-- What is to hold of the pass over all edges of a file. -/
structure Binds (edges : List ParsedEdge) : Prop where
  targets : List.Forall₂ (fun edge edge' => edge' = { edge with target := edge'.target } ∧
    (edge'.target ≠ edge.target → (edge.kind = .calls ∨ edge.kind = .references) ∧
      ∃ node ∈ f.nodes, declares node = true ∧
        edge'.target = qualify f.filePath node.name node.parentName))
    edges (f.resolveRustCallTargets edges)
  again : f.resolveRustCallTargets (f.resolveRustCallTargets edges) =
    f.resolveRustCallTargets edges
  names : ∀ edge ∈ edges, mayBind edge = true → hasScope edge.target = false →
    f.Scoped edge.source edge.target (f.rewrite edge).target

variable {f} {name caller target owner : String} {symbol : Symbol}

/-! ## Qualified names -/

/-- The part of a qualified name behind the file. -/
def within (name : String) (p : Option String) : String :=
  match p.filter (· ≠ "") with
  | some parent => parent ++ "." ++ name
  | none => name

theorem qualify_eq_within (file name : String) (p : Option String) :
    qualify file name p = file ++ ("::" ++ within name p) := by
  unfold qualify within
  cases p.filter (· ≠ "") with
  | none => simp only [String.append_assoc]
  | some parent => simp only [String.append_assoc]

theorem hasScope_qualify (file name : String) (p : Option String) :
    hasScope (qualify file name p) = true := by
  rw [qualify_eq_within, hasScope, String.toList_append, String.toList_append]
  exact isSome_splitFirst (by decide) _ _

theorem within_inj {p q : Option String} (h : within name p = within name q) :
    p.filter (· ≠ "") = q.filter (· ≠ "") := by
  have hlen : ∀ a : String, (a ++ "." ++ name).toList ≠ name.toList := by
    intro a heq
    have hlength := congrArg List.length heq
    simp only [String.toList_append, List.length_append] at hlength
    have hdot : ".".toList.length = 1 := by decide
    omega
  unfold within at h
  cases hp : p.filter (· ≠ "") with
  | none =>
      cases hq : q.filter (· ≠ "") with
      | none => rfl
      | some b =>
          rw [hp, hq] at h
          exact absurd (congrArg String.toList h).symm (hlen b)
  | some a =>
      cases hq : q.filter (· ≠ "") with
      | none =>
          rw [hp, hq] at h
          exact absurd (congrArg String.toList h) (hlen a)
      | some b =>
          rw [hp, hq] at h
          have hlist := congrArg String.toList h
          simp only [String.toList_append, List.append_assoc, List.append_cancel_right_eq] at hlist
          rw [String.toList_inj.mp hlist]

theorem qualify_inj {file : String} {p q : Option String}
    (h : qualify file name p = qualify file name q) : p.filter (· ≠ "") = q.filter (· ≠ "") := by
  refine @within_inj name p q ?_
  rw [qualify_eq_within, qualify_eq_within] at h
  have hlist := congrArg String.toList h
  simp only [String.toList_append, List.append_cancel_left_eq] at hlist
  exact String.toList_inj.mp hlist

theorem qualify_some_inj {file s s' : String} (hs : s ≠ "") (hs' : s' ≠ "")
    (h : qualify file name (some s) = qualify file name (some s')) : s = s' := by
  have hfilter := qualify_inj h
  rw [Option.filter_some_pos (by simpa using hs), Option.filter_some_pos (by simpa using hs')]
    at hfilter
  exact Option.some.inj hfilter

theorem qualify_ne_none {file s : String} (hs : s ≠ "") :
    qualify file name none ≠ qualify file name (some s) := by
  intro h
  have hfilter := qualify_inj h
  rw [Option.filter_some_pos (by simpa using hs)] at hfilter
  cases hfilter

theorem qualify_congr {file : String} {p q : Option String}
    (h : p.filter (· ≠ "") = q.filter (· ≠ "")) : qualify file name p = qualify file name q := by
  unfold qualify
  rw [h]

/-! ## Candidates -/

theorem qualified_of_mem (h : symbol ∈ f.candidates name) :
    symbol.qualified = qualify f.filePath name symbol.parent ∧
      ∃ node ∈ f.nodes, declares node = true ∧
        symbol.qualified = qualify f.filePath node.name node.parentName := by
  obtain ⟨node, hnode, rfl⟩ := List.mem_map.mp h
  obtain ⟨hmem, hdecl⟩ := List.mem_filter.mp hnode
  rw [Bool.and_eq_true, decide_eq_true_eq] at hdecl
  exact ⟨by rw [hdecl.2], node, hmem, hdecl.1, rfl⟩

theorem inOwner_spec {symbols : List Symbol} (h : inOwner symbols owner = some symbol) :
    symbol ∈ symbols ∧ symbol.parent = some owner := by
  unfold inOwner at h
  exact ⟨List.mem_of_find?_eq_some h, by simpa using List.find?_some h⟩

theorem topLevel_spec {symbols : List Symbol} (h : topLevel symbols = some symbol) :
    symbol ∈ symbols ∧ symbol.parent = none := by
  unfold topLevel at h
  exact ⟨List.mem_of_find?_eq_some h, by simpa using List.find?_some h⟩

theorem qualified_inOwner (h : inOwner (f.candidates name) owner = some symbol) :
    symbol.qualified = qualify f.filePath name (some owner) := by
  obtain ⟨hmem, hparent⟩ := inOwner_spec h
  rw [(qualified_of_mem hmem).1, hparent]

theorem qualified_topLevel (h : topLevel (f.candidates name) = some symbol) :
    symbol.qualified = qualify f.filePath name none := by
  obtain ⟨hmem, hparent⟩ := topLevel_spec h
  rw [(qualified_of_mem hmem).1, hparent]

theorem inOwner_methods (symbols : List Symbol) (owner : String) :
    inOwner (f.methods symbols) owner =
      if owner ∈ f.objectOwners then none else inOwner symbols owner := by
  rw [inOwner, methods, List.find?_filter]
  split
  · rename_i hobject
    refine List.find?_eq_none.mpr fun symbol _ => ?_
    simp only [decide_eq_true_eq]
    rintro ⟨hkeep, hparent⟩
    simp [hparent, hobject] at hkeep
  · rename_i hobject
    refine congrArg (fun p => List.find? p symbols) (funext fun symbol => ?_)
    by_cases hparent : symbol.parent = some owner
    · simp [hparent, hobject]
    · simp [hparent]

theorem findSome_methods (symbols : List Symbol) (scopes : List String) :
    scopes.findSome? (inOwner (f.methods symbols)) =
      (scopes.filter (· ∉ f.objectOwners)).findSome? (inOwner symbols) := by
  induction scopes with
  | nil => rfl
  | cons scope scopes ih =>
      rw [List.findSome?_cons, inOwner_methods, ih, List.filter_cons]
      by_cases hobject : scope ∈ f.objectOwners
      · simp [hobject]
      · simp [hobject, List.findSome?_cons]

/-! ## Bare names -/

theorem resolveTypeScopedCall_of_bare (h : hasScope target = false) :
    f.resolveTypeScopedCall target = none := by
  have hnone : splitFirst [':', ':'] target.toList = none := by
    simpa [hasScope] using h
  have hafter : rsplitOnce "::" target = none := by
    have hsep : "::".toList = [':', ':'] := by decide
    rw [rsplitOnce, hsep, (afterLast_eq_none_iff _ _).mpr hnone]
    rfl
  rw [resolveTypeScopedCall, hafter]
  split <;> rfl

theorem resolve_of_bare (h : hasScope name = false) :
    f.resolveSameFileCallTarget caller name =
      ((((f.callerOwn caller).bind (inOwner (f.candidates name))).or
        (topLevel (f.candidates name))).or <|
        ((f.ownersAround caller).findSome? (inOwner (f.candidates name))).or
          (f.methods (f.candidates name)).head?).map Symbol.qualified := by
  have hname : f.sameFileUnqualifiedName name = some name := by
    simp [sameFileUnqualifiedName, h]
  rw [resolveSameFileCallTarget, resolveTypeScopedCall_of_bare h, hname]
  simp only [Option.bind_some, h, Bool.false_eq_true, if_false]
  cases hown : (f.callerOwn caller).bind (inOwner (f.candidates name)) with
  | some symbol => rfl
  | none =>
      cases htop : topLevel (f.candidates name) with
      | some symbol => rfl
      | none =>
          rw [pickMethodForCaller, findSome_methods]
          simp only [ownersAround, Option.none_or]
          cases (List.filter (· ∉ f.objectOwners) (f.callerScopes caller)).findSome?
              (inOwner (f.candidates name)) with
          | some symbol => rfl
          | none => rfl

theorem qualified_ne_object (hmem : symbol ∈ f.candidates name)
    (h : ∀ o, symbol.parent = some o → o ∉ f.objectOwners) {o : String} (ho : o ∈ f.objectOwners)
    (hne : o ≠ "") : symbol.qualified ≠ qualify f.filePath name (some o) := by
  rw [(qualified_of_mem hmem).1]
  intro heq
  have hfilter := qualify_inj heq
  rw [Option.filter_some_pos (by simpa using hne), Option.filter_eq_some_iff] at hfilter
  exact h o hfilter.1 ho

theorem not_mem_objectOwners_of_around {s : String} (h : s ∈ f.ownersAround caller) :
    s ∉ f.objectOwners ∧ s ≠ "" := by
  obtain ⟨hmem, hobject⟩ := List.mem_filter.mp h
  refine ⟨of_decide_eq_true hobject, ?_⟩
  unfold callerScopes at hmem
  split at hmem
  · exact ne_empty_of_mem_dotFronts hmem
  · exact absurd hmem List.not_mem_nil

theorem findSome_spec {symbols : List Symbol} {scopes : List String}
    (h : scopes.findSome? (inOwner symbols) = some symbol) :
    ∃ s ∈ scopes, inOwner symbols s = some symbol := by
  obtain ⟨s, hs, hsome⟩ := List.exists_of_findSome?_eq_some h
  exact ⟨s, hs, hsome⟩

theorem findSome_ownScope (symbols : List Symbol) :
    (f.ownScope caller).findSome? (inOwner symbols) = (f.callerOwn caller).bind fun own =>
      if own ∈ f.objectOwners then none else inOwner symbols own := by
  rw [ownScope]
  cases f.callerOwn caller with
  | none => rfl
  | some own =>
      by_cases hobject : own ∈ f.objectOwners
      · simp [hobject]
      · cases h : inOwner symbols own <;> simp [hobject, h]

theorem scoped_of_own {own : String} (hown : f.callerOwn caller = some own)
    (hin : inOwner (f.candidates name) own = some symbol) (hobject : own ∉ f.objectOwners) :
    f.Scoped caller name symbol.qualified := by
  have hlexical : f.lexicalTarget caller name = some symbol := by
    rw [lexicalTarget, List.findSome?_append, findSome_ownScope, hown]
    simp [hobject, hin]
  obtain ⟨hmem, hparent⟩ := inOwner_spec hin
  constructor
  · rw [hlexical]
    rfl
  · intro o ho hne
    refine qualified_ne_object hmem (fun o' ho' => ?_) ho hne
    rw [hparent] at ho'
    exact Option.some.inj ho' ▸ hobject

theorem lexicalTarget_of_own_none
    (hown : (f.ownScope caller).findSome? (inOwner (f.candidates name)) = none) :
    f.lexicalTarget caller name =
      ((f.functionsAround caller).findSome? (inOwner (f.candidates name))).or
        ((topLevel (f.candidates name)).or
          ((f.ownersAround caller).findSome? (inOwner (f.candidates name)))) := by
  rw [lexicalTarget, List.findSome?_append, hown, Option.none_or]

theorem parent_of_around {scopes : List String} (hsub : ∀ s ∈ scopes, s ∈ f.ownersAround caller)
    (h : scopes.findSome? (inOwner (f.candidates name)) = some symbol) :
    symbol ∈ f.candidates name ∧ ∃ s ∈ f.ownersAround caller, symbol.parent = some s ∧
      s ∉ f.objectOwners ∧ s ≠ "" ∧ inOwner (f.candidates name) s = some symbol := by
  obtain ⟨s, hs, hsome⟩ := findSome_spec h
  obtain ⟨hobject, hne⟩ := not_mem_objectOwners_of_around (hsub s hs)
  exact ⟨(inOwner_spec hsome).1, s, hsub s hs, (inOwner_spec hsome).2, hobject, hne, hsome⟩

theorem functionsAround_sub : ∀ s ∈ f.functionsAround caller, s ∈ f.ownersAround caller :=
  fun _ hs => (List.mem_filter.mp hs).1

def outerTarget (f : SourceFile) (caller name : String) : Option Symbol :=
  (topLevel (f.candidates name)).or <|
    ((f.ownersAround caller).findSome? (inOwner (f.candidates name))).or
      (f.methods (f.candidates name)).head?

theorem outerTarget_noObject (h : f.outerTarget caller name = some symbol) :
    symbol ∈ f.candidates name ∧ ∀ o, symbol.parent = some o → o ∉ f.objectOwners := by
  rw [outerTarget, Option.or_eq_some_iff, Option.or_eq_some_iff] at h
  rcases h with htop | ⟨-, hfound | ⟨-, hhead⟩⟩
  · obtain ⟨hmem, hparent⟩ := topLevel_spec htop
    exact ⟨hmem, fun o ho => by rw [hparent] at ho; cases ho⟩
  · obtain ⟨hmem, s, -, hparent, hobject, -⟩ := parent_of_around (fun _ hs => hs) hfound
    exact ⟨hmem, fun o ho => by rw [hparent] at ho; exact Option.some.inj ho ▸ hobject⟩
  · obtain ⟨hmem, hkeep⟩ := List.mem_filter.mp (List.mem_of_mem_head? hhead)
    exact ⟨hmem, fun o ho => by simpa [ho] using hkeep⟩

/-- The target of a call whose name the caller does not declare. -/
def boundOuter (f : SourceFile) (caller name : String) : String :=
  ((f.outerTarget caller name).map Symbol.qualified).getD name

theorem qualified_ne_bare (hmem : symbol ∈ f.candidates name) (h : hasScope name = false) :
    symbol.qualified ≠ name := by
  intro heq
  have hscope := hasScope_qualify f.filePath name symbol.parent
  rw [← (qualified_of_mem hmem).1, heq, h] at hscope
  cases hscope

theorem boundOuter_noObject (h : hasScope name = false) {o : String} (ho : o ∈ f.objectOwners)
    (hne : o ≠ "") : f.boundOuter caller name ≠ qualify f.filePath name (some o) := by
  unfold boundOuter
  cases hout : f.outerTarget caller name with
  | none =>
      intro heq
      have hscope := hasScope_qualify f.filePath name (some o)
      rw [← heq, Option.map_none, Option.getD_none, h] at hscope
      cases hscope
  | some symbol =>
      obtain ⟨hmem, hparent⟩ := outerTarget_noObject hout
      exact qualified_ne_object hmem hparent ho hne

theorem scoped_boundOuter_iff (h : hasScope name = false) :
    f.Scoped caller name (f.boundOuter caller name) ↔
      f.boundOuter caller name = ((f.lexicalTarget caller name).map Symbol.qualified).getD name :=
  ⟨Scoped.binds, fun hbinds => ⟨hbinds, fun _ ho hne => boundOuter_noObject h ho hne⟩⟩

/-- A declaration of a function around the caller is reached where nothing comes before it. -/
theorem boundOuter_eq_function_iff
    (haround : (f.functionsAround caller).findSome? (inOwner (f.candidates name)) = some symbol) :
    f.boundOuter caller name = symbol.qualified ↔ topLevel (f.candidates name) = none ∧
      (f.ownersAround caller).findSome? (inOwner (f.candidates name)) = some symbol := by
  obtain ⟨-, s, hscope, -, -, hs, hin⟩ := parent_of_around functionsAround_sub haround
  have hsymbol : symbol.qualified = qualify f.filePath name (some s) := qualified_inOwner hin
  rw [boundOuter, outerTarget, hsymbol]
  cases htop : topLevel (f.candidates name) with
  | some top =>
      simp only [reduceCtorEq, false_and, iff_false]
      rw [Option.some_or, Option.map_some, Option.getD_some, qualified_topLevel htop]
      exact qualify_ne_none hs
  | none =>
      have hsome : ((f.ownersAround caller).findSome? (inOwner (f.candidates name))).isSome := by
        rw [List.findSome?_isSome_iff]
        exact ⟨s, hscope, by rw [hin]; rfl⟩
      obtain ⟨nearest, hnearest⟩ := Option.isSome_iff_exists.mp hsome
      obtain ⟨-, s', -, -, -, hs', hin'⟩ := parent_of_around (fun _ hs => hs) hnearest
      rw [hnearest, Option.none_or, Option.some_or, Option.map_some, Option.getD_some,
        qualified_inOwner hin', Option.some.injEq]
      simp only [true_and]
      constructor
      · intro heq
        obtain rfl := qualify_some_inj hs' hs heq
        exact Option.some.inj (hin'.symm.trans hin)
      · rintro rfl
        rw [← qualified_inOwner hin', hsymbol]

/-- Where no scope declares the name, any member of the file takes it. -/
theorem boundOuter_eq_name_iff (h : hasScope name = false)
    (houter : (topLevel (f.candidates name)).or
      ((f.ownersAround caller).findSome? (inOwner (f.candidates name))) = none) :
    f.boundOuter caller name = name ↔ f.methods (f.candidates name) = [] := by
  rw [boundOuter, outerTarget, ← Option.or_assoc, houter, Option.none_or]
  cases hmethods : f.methods (f.candidates name) with
  | nil => simp
  | cons symbol rest =>
      have hmem : symbol ∈ f.methods (f.candidates name) := hmethods ▸ List.mem_cons_self
      simpa using qualified_ne_bare (List.mem_filter.mp hmem).1 h

/-- A name that the caller does not declare is bound as its scope says where the functions
around the caller are in order, and no member takes a name that no scope declares. -/
theorem scoped_outer_iff (h : hasScope name = false)
    (hown : (f.ownScope caller).findSome? (inOwner (f.candidates name)) = none) :
    f.Scoped caller name (f.boundOuter caller name) ↔
      (∀ symbol, (f.functionsAround caller).findSome? (inOwner (f.candidates name)) = some symbol →
        topLevel (f.candidates name) = none ∧
          (f.ownersAround caller).findSome? (inOwner (f.candidates name)) = some symbol) ∧
      (f.lexicalTarget caller name = none → f.methods (f.candidates name) = []) := by
  have hlexical := lexicalTarget_of_own_none hown
  rw [scoped_boundOuter_iff h]
  cases haround : (f.functionsAround caller).findSome? (inOwner (f.candidates name)) with
  | some symbol =>
      rw [haround, Option.some_or] at hlexical
      rw [hlexical, Option.map_some, Option.getD_some, boundOuter_eq_function_iff haround]
      simp
  | none =>
      rw [haround, Option.none_or] at hlexical
      rw [hlexical]
      cases houter : (topLevel (f.candidates name)).or
          ((f.ownersAround caller).findSome? (inOwner (f.candidates name))) with
      | some symbol =>
          rw [boundOuter, outerTarget, ← Option.or_assoc, houter]
          simp
      | none => simp [boundOuter_eq_name_iff h houter]

theorem ownersAround_of_unnamed (hcaller : f.callerOwn caller = some "") :
    f.ownersAround caller = [] := by
  rw [ownersAround, callerScopes, hcaller]
  rfl

theorem lexicalTarget_of_unnamed (hcaller : f.callerOwn caller = some "")
    (hobject : "" ∈ f.objectOwners) :
    f.lexicalTarget caller name = topLevel (f.candidates name) := by
  have hown : (f.ownScope caller).findSome? (inOwner (f.candidates name)) = none := by
    rw [findSome_ownScope, hcaller, Option.bind_some, if_pos hobject]
  rw [lexicalTarget_of_own_none hown, functionsAround, ownersAround_of_unnamed hcaller]
  simp

theorem scoped_of_unnamed_iff (h : hasScope name = false) (hcaller : f.callerOwn caller = some "")
    (hin : inOwner (f.candidates name) "" = some symbol) (hobject : "" ∈ f.objectOwners) :
    f.Scoped caller name symbol.qualified ↔ topLevel (f.candidates name) ≠ none := by
  have hqualified : symbol.qualified = qualify f.filePath name none := by
    rw [qualified_inOwner hin]
    exact qualify_congr (by simp)
  have hlexical : f.lexicalTarget caller name = topLevel (f.candidates name) :=
    lexicalTarget_of_unnamed hcaller hobject
  cases htop : topLevel (f.candidates name) with
  | none =>
      refine iff_of_false (fun hscoped => ?_) (by simp)
      have hbinds := hscoped.binds
      rw [hlexical, htop] at hbinds
      exact qualified_ne_bare (inOwner_spec hin).1 h hbinds
  | some top =>
      refine iff_of_true ⟨?_, fun o _ hne => ?_⟩ (by simp)
      · rw [hlexical, htop, Option.map_some, Option.getD_some, hqualified, qualified_topLevel htop]
      · rw [hqualified]
        exact qualify_ne_none hne

theorem scoped_iff (h : hasScope name = false) :
    f.Scoped caller name ((f.resolveSameFileCallTarget caller name).getD name) ↔
      f.InOrder caller name := by
  rw [resolve_of_bare h]
  cases hbind : (f.callerOwn caller).bind (inOwner (f.candidates name)) with
  | none =>
      have hown : (f.ownScope caller).findSome? (inOwner (f.candidates name)) = none := by
        rw [findSome_ownScope]
        cases hcaller : f.callerOwn caller with
        | none => rfl
        | some own =>
            rw [hcaller, Option.bind_some] at hbind
            rw [Option.bind_some, hbind, ite_self]
      rw [Option.none_or, ← outerTarget, ← boundOuter, scoped_outer_iff h hown]
      refine ⟨fun ⟨haround, hmembers⟩ => ⟨fun own hcaller _ _ => ?_, fun _ => haround, hmembers⟩,
        fun horder => ⟨horder.around hown, horder.members⟩⟩
      rw [hcaller, Option.bind_some] at hbind
      exact hbind
  | some symbol =>
      obtain ⟨own, hcaller, hin⟩ := Option.bind_eq_some_iff.mp hbind
      rw [Option.some_or, Option.some_or, Option.map_some, Option.getD_some]
      by_cases hobject : own ∈ f.objectOwners
      · by_cases hempty : own = ""
        · subst hempty
          rw [scoped_of_unnamed_iff h hcaller hin hobject]
          constructor
          · intro htop
            refine ⟨fun own' hcaller' _ hnone => ?_, fun _ _ hfound => ?_, fun hnone => ?_⟩
            · exact absurd (hnone (Option.some.inj (hcaller'.symm.trans hcaller))) htop
            · rw [functionsAround, ownersAround_of_unnamed hcaller] at hfound
              cases hfound
            · exact absurd ((lexicalTarget_of_unnamed hcaller hobject).symm.trans hnone) htop
          · intro horder htop
            rw [horder.noObject "" hcaller hobject fun _ => htop] at hin
            cases hin
        · refine iff_of_false (fun hscoped => ?_) fun horder => ?_
          · exact hscoped.noObject own hobject hempty (qualified_inOwner hin)
          · rw [horder.noObject own hcaller hobject (absurd · hempty)] at hin
            cases hin
      · have hscoped := scoped_of_own hcaller hin hobject
        refine iff_of_true hscoped ⟨?_, ?_, fun hnone => ?_⟩
        · intro own' hcaller' hobject' _
          rw [hcaller] at hcaller'
          exact absurd (Option.some.inj hcaller' ▸ hobject') hobject
        · intro hnone
          rw [findSome_ownScope, hcaller, Option.bind_some, if_neg hobject, hin] at hnone
          cases hnone
        · have hbinds := hscoped.binds
          rw [hnone] at hbinds
          exact absurd hbinds (qualified_ne_bare (inOwner_spec hin).1 h)

/-! ## The pass -/

def bindName (f : SourceFile) (caller target name : String) : Option String :=
  match (f.callerOwn caller).bind (inOwner (f.candidates name)) with
  | some symbol => some symbol.qualified
  | none =>
      match topLevel (f.candidates name) with
      | some symbol => if hasScope target then none else some symbol.qualified
      | none => f.pickMethodForCaller caller (f.methods (f.candidates name))

theorem resolve_eq (f : SourceFile) (caller target : String) :
    f.resolveSameFileCallTarget caller target = (f.resolveTypeScopedCall target).or
      ((f.sameFileUnqualifiedName target).bind (f.bindName caller target)) := by
  rw [resolveSameFileCallTarget]
  cases f.resolveTypeScopedCall target with
  | some resolved => rfl
  | none => rfl

theorem typeScoped_spec {resolved : String} (h : f.resolveTypeScopedCall target = some resolved) :
    ∃ method, ∃ symbol ∈ f.candidates method, resolved = symbol.qualified ∧
      ∃ p, symbol.parent = some p ∧ p ≠ "" := by
  unfold resolveTypeScopedCall at h
  split at h
  · cases h
  obtain ⟨⟨typeName, method⟩, -, h⟩ := Option.bind_eq_some_iff.mp h
  dsimp only at h
  split at h
  · cases h
  rename_i hplain
  split at h
  · cases h
  refine ⟨method, ?_⟩
  have hne : typeName ≠ "" := fun heq => hplain (by simp [heq])
  split at h
  · rename_i symbol hfind
    obtain ⟨hmem, hparent⟩ := inOwner_spec hfind
    exact ⟨symbol, hmem, (Option.some.inj h).symm, typeName, hparent, hne⟩
  · split at h
    · rename_i symbol hone
      have hmem : symbol ∈ [symbol] := List.mem_singleton_self symbol
      rw [← hone] at hmem
      obtain ⟨hcandidate, hsuffix⟩ := List.mem_filter.mp hmem
      refine ⟨symbol, hcandidate, (Option.some.inj h).symm, ?_⟩
      cases hp : symbol.parent with
      | none =>
          rw [hp] at hsuffix
          cases hsuffix
      | some p =>
          refine ⟨p, rfl, ?_⟩
          rintro rfl
          rw [hp] at hsuffix
          simp at hsuffix
    · cases h

theorem pick_spec {symbols : List Symbol} {resolved : String}
    (h : f.pickMethodForCaller caller symbols = some resolved) :
    ∃ symbol ∈ symbols, resolved = symbol.qualified := by
  unfold pickMethodForCaller at h
  split at h
  · rename_i symbol hfound
    obtain ⟨s, -, hin⟩ := findSome_spec hfound
    exact ⟨symbol, (inOwner_spec hin).1, (Option.some.inj h).symm⟩
  · obtain ⟨symbol, hhead, rfl⟩ := Option.map_eq_some_iff.mp h
    exact ⟨symbol, List.mem_of_mem_head? hhead, rfl⟩

theorem bindName_spec {resolved : String} (h : f.bindName caller target name = some resolved) :
    ∃ symbol ∈ f.candidates name, resolved = symbol.qualified := by
  unfold bindName at h
  split at h
  · rename_i symbol hown
    obtain ⟨own, -, hin⟩ := Option.bind_eq_some_iff.mp hown
    exact ⟨symbol, (inOwner_spec hin).1, (Option.some.inj h).symm⟩
  · split at h
    · rename_i symbol htop
      split at h
      · cases h
      · exact ⟨symbol, (topLevel_spec htop).1, (Option.some.inj h).symm⟩
    · obtain ⟨symbol, hmem, heq⟩ := pick_spec h
      exact ⟨symbol, (List.mem_filter.mp hmem).1, heq⟩

theorem resolve_declared {resolved : String}
    (h : f.resolveSameFileCallTarget caller target = some resolved) :
    ∃ node ∈ f.nodes, declares node = true ∧
      resolved = qualify f.filePath node.name node.parentName := by
  have hsymbol : ∃ name, ∃ symbol ∈ f.candidates name, resolved = symbol.qualified := by
    rw [resolve_eq, Option.or_eq_some_iff] at h
    rcases h with htype | ⟨-, hname⟩
    · obtain ⟨method, symbol, hmem, heq, -⟩ := typeScoped_spec htype
      exact ⟨method, symbol, hmem, heq⟩
    · obtain ⟨name, -, hbind⟩ := Option.bind_eq_some_iff.mp hname
      exact ⟨name, bindName_spec hbind⟩
  obtain ⟨name, symbol, hmem, rfl⟩ := hsymbol
  exact (qualified_of_mem hmem).2

/-! ## A second pass -/

theorem typeScoped_qualify (p : Option String) :
    f.resolveTypeScopedCall (qualify f.filePath name p) = none := by
  have hpre : f.filePath.toList.isPrefixOf (qualify f.filePath name p).toList = true := by
    rw [List.isPrefixOf_iff_prefix, qualify_eq_within, String.toList_append]
    exact List.prefix_append _ _
  rw [resolveTypeScopedCall, if_pos hpre]

theorem unqualified_qualify (p : Option String) :
    f.sameFileUnqualifiedName (qualify f.filePath name p) =
      if (within name p).toList.contains '.' then none else some (within name p) := by
  rw [sameFileUnqualifiedName, hasScope_qualify, qualify_eq_within, stripFront_append]
  simp only [Bool.not_true, Bool.false_eq_true, if_false, Option.bind_some, stripFront_append]

theorem within_of_parent {p : Option String} {parent : String}
    (h : p.filter (· ≠ "") = some parent) : (within name p).toList.contains '.' = true := by
  have hdot : '.' ∈ ".".toList := by decide
  rw [within, h, List.contains_iff_mem, String.toList_append, String.toList_append]
  exact List.mem_append_left _ (List.mem_append_right _ hdot)

theorem bindName_again {target' resolved : String}
    (h : f.bindName caller target name = some resolved) (hscope : hasScope target' = true) :
    (f.bindName caller target' name).getD resolved = resolved := by
  unfold bindName at h ⊢
  cases hown : (f.callerOwn caller).bind (inOwner (f.candidates name)) with
  | some symbol =>
      rw [hown] at h
      exact Option.some.inj h
  | none =>
      rw [hown] at h
      dsimp only at h ⊢
      cases htop : topLevel (f.candidates name) with
      | some symbol => simp [hscope]
      | none =>
          rw [htop] at h
          dsimp only at h ⊢
          rw [h]
          rfl

theorem resolve_again {resolved : String}
    (h : f.resolveSameFileCallTarget caller target = some resolved) :
    (f.resolveSameFileCallTarget caller resolved).getD resolved = resolved := by
  rw [resolve_eq, Option.or_eq_some_iff] at h
  rcases h with htype | ⟨-, hname⟩
  · obtain ⟨method, symbol, hmem, rfl, p, hparent, hne⟩ := typeScoped_spec htype
    have hfilter : symbol.parent.filter (· ≠ "") = some p := by
      rw [hparent, Option.filter_some_pos (by simpa using hne)]
    rw [(qualified_of_mem hmem).1, resolve_eq, typeScoped_qualify, unqualified_qualify,
      if_pos (within_of_parent hfilter)]
    rfl
  · obtain ⟨name, -, hbind⟩ := Option.bind_eq_some_iff.mp hname
    obtain ⟨symbol, hmem, rfl⟩ := bindName_spec hbind
    have hqualified := (qualified_of_mem hmem).1
    rw [hqualified, resolve_eq, typeScoped_qualify, unqualified_qualify, Option.none_or]
    split
    · rfl
    · rename_i hdots
      have hwithin : within name symbol.parent = name := by
        cases hfilter : symbol.parent.filter (· ≠ "") with
        | none => rw [within, hfilter]
        | some parent => exact absurd (within_of_parent hfilter) hdots
      rw [hwithin, Option.bind_some, ← hqualified]
      refine bindName_again hbind ?_
      rw [hqualified]
      exact hasScope_qualify _ _ _

theorem rewrite_again (f : SourceFile) (edge : ParsedEdge) :
    f.rewrite (f.rewrite edge) = f.rewrite edge := by
  unfold rewrite
  by_cases hbind : mayBind edge = true
  · rw [if_pos hbind]
    cases hresolve : f.resolveSameFileCallTarget edge.source edge.target with
    | none =>
        dsimp only
        rw [if_pos hbind, hresolve]
    | some target =>
        have hbind' : mayBind { edge with target := target } = true := hbind
        have hagain := resolve_again hresolve
        dsimp only
        rw [if_pos hbind']
        cases hsecond : f.resolveSameFileCallTarget edge.source target with
        | none => rfl
        | some target' =>
            rw [hsecond] at hagain
            obtain rfl : target' = target := hagain
            rfl
  · rw [if_neg hbind, if_neg hbind]

/-- Only the target of a call or reference changes, and into a declaration of the file. -/
theorem rewrite_target (f : SourceFile) (edge : ParsedEdge) :
    f.rewrite edge = { edge with target := (f.rewrite edge).target } ∧
      ((f.rewrite edge).target ≠ edge.target → (edge.kind = .calls ∨ edge.kind = .references) ∧
        ∃ node ∈ f.nodes, declares node = true ∧
          (f.rewrite edge).target = qualify f.filePath node.name node.parentName) := by
  unfold rewrite
  by_cases hbind : mayBind edge = true
  · rw [if_pos hbind]
    cases hresolve : f.resolveSameFileCallTarget edge.source edge.target with
    | none => exact ⟨rfl, fun hne => absurd rfl hne⟩
    | some target =>
        refine ⟨rfl, fun _ => ⟨?_, resolve_declared hresolve⟩⟩
        simp only [mayBind, Bool.and_eq_true, Bool.or_eq_true, decide_eq_true_eq] at hbind
        exact hbind.1.1.1.1
  · rw [if_neg hbind]
    exact ⟨rfl, fun hne => absurd rfl hne⟩

theorem target_rewrite {edge : ParsedEdge} (h : mayBind edge = true) :
    (f.rewrite edge).target =
      (f.resolveSameFileCallTarget edge.source edge.target).getD edge.target := by
  rw [rewrite, if_pos h]
  cases f.resolveSameFileCallTarget edge.source edge.target <;> rfl

/-- The pass over a file does what it is for exactly where the scopes of its calls by a bare name
are in order. -/
theorem binds_iff (f : SourceFile) (edges : List ParsedEdge) :
    f.Binds edges ↔ ∀ edge ∈ edges, mayBind edge = true → hasScope edge.target = false →
      f.InOrder edge.source edge.target := by
  constructor
  · intro h edge hedge hbind hbare
    have hscoped := h.names edge hedge hbind hbare
    rw [target_rewrite hbind] at hscoped
    exact (scoped_iff hbare).mp hscoped
  · intro h
    constructor
    · refine List.forall₂_map_right_iff.mpr (List.forall₂_same.mpr fun edge _ => ?_)
      exact f.rewrite_target edge
    · rw [resolveRustCallTargets, resolveRustCallTargets, List.map_map]
      exact List.map_congr_left fun edge _ => f.rewrite_again edge
    · intro edge hedge hbind hbare
      rw [target_rewrite hbind]
      exact (scoped_iff hbare).mpr (h edge hedge hbind hbare)

/-! ### A function in a function -/

def nestedNode (kind : NodeKind) (name : String) (parent : Option String) : ParsedNode where
  kind := kind
  name := name
  filePath := "a.py"
  language := "python"
  parentName := parent

/-- `outer` declares `helper` and `inner`, which calls `helper`; there is a `helper` at the top
level too. -/
def nestedFile : SourceFile where
  filePath := "a.py"
  nodes :=
    [nestedNode .function "helper" none, nestedNode .function "outer" none,
      nestedNode .function "helper" (some "outer"), nestedNode .function "inner" (some "outer")]

def nestedCall : ParsedEdge where
  kind := .calls
  source := "a.py::outer.inner"
  target := "helper"
  filePath := "a.py"

/-- The call in the inner function is bound to the function at the top level. -/
theorem not_binds_nestedFile : (nestedFile.rewrite nestedCall).target = "a.py::helper" ∧
    (nestedFile.lexicalTarget "a.py::outer.inner" "helper").map Symbol.qualified =
      some "a.py::outer.helper" ∧ ¬ nestedFile.Binds [nestedCall] := by
  have htarget : (nestedFile.rewrite nestedCall).target = "a.py::helper" := by decide +kernel
  have hlexical : (nestedFile.lexicalTarget "a.py::outer.inner" "helper").map Symbol.qualified =
      some "a.py::outer.helper" := by decide +kernel
  refine ⟨htarget, hlexical, fun h => ?_⟩
  have hscoped := h.names nestedCall (List.mem_singleton_self _) (by decide +kernel)
    (by decide +kernel)
  have hbound := hscoped.binds
  rw [htarget, show nestedCall.source = "a.py::outer.inner" from rfl,
    show nestedCall.target = "helper" from rfl, hlexical] at hbound
  exact absurd hbound (by decide)

end SourceFile

end SameFileCalls

end Dagayn
