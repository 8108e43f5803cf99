import Dagayn.Communities
import Dagayn.Lowercase
import Dagayn.Tally
import Dagayn.Visibility
import Mathlib

/-!
# Names of communities

`generate_community_name`: the directory most members are in, and the class or the word most
of them carry. Every choice is made by a count and, of one count, by the smaller text, so
that the order in which the count's hash map is gone through does not show
(`generateCommunityName_order`).
-/

namespace Dagayn

namespace Communities

open Tally

def commonWords : List String :=
  ["get", "set", "self", "init", "new", "create", "update", "delete", "add", "remove", "make",
    "build", "from", "to", "for", "with", "the", "and", "test", "main", "run", "do", "is", "has",
    "on", "of", "in", "at", "by", "my", "this", "that", "all", "none"]

/-- `replace_all` of `([a-z])([A-Z])` by `$1_$2`. The replacement names the group `1_`, which
there is none of, and the second group: the lower-case letter goes. -/
def splitCamel : List Char → List Char
  | a :: b :: rest =>
      if 'a' ≤ a && a ≤ 'z' && 'A' ≤ b && b ≤ 'Z' then b :: splitCamel rest
      else a :: splitCamel (b :: rest)
  | cs => cs

def splitName (name : String) : List String :=
  (((splitCamel name.toList).splitOnP fun c => c = '_' || c = '-' || c = '.' ||
    isWhitespace c).filter fun part => !part.isEmpty).map String.ofList

example : splitName "getUserName_v2" = ["geUseName", "v2"] := by decide +kernel

def isSlugChar (c : Char) : Bool := ('a' ≤ c && c ≤ 'z') || ('0' ≤ c && c ≤ '9')

/-- `replace_all` of `[^a-z0-9]+` by a hyphen; `inRun` says that the character before was
replaced too. -/
def hyphenate (inRun : Bool) : List Char → List Char
  | [] => []
  | c :: rest =>
      if isSlugChar c then c :: hyphenate false rest
      else if inRun then hyphenate true rest
      else '-' :: hyphenate true rest

def toSlug (value : String) : String :=
  String.ofList ((((hyphenate false (toLowercase value).toList).dropWhile (· = '-')).rdropWhile
    (· = '-')).take 30)

/-- `replace('\\', "/").split('/')`. -/
def pathSegments (path : String) : List String :=
  ((path.toList.map fun c => if c = '\\' then '/' else c).splitOnP (· = '/')).map String.ofList

def stemOf (name : String) : Option String := (rsplitOnce "." name).map Prod.fst

/-- What `extract_file_prefix` counts for a path: its directory, or the stem of a bare name. -/
def filePart (path : String) : String :=
  match (pathSegments path).reverse with
  | _ :: directory :: _ => directory
  | [name] => (stemOf name).getD ""
  | [] => ""

section Naming

variable (o : HashOrders) (place : List Nat) (members : List NodeRow)

def extractFilePrefix : String :=
  let counts := tally (members.map fun n => filePart n.input.filePath)
  ((mostCommon (o.order (0 :: place) (entries counts))).map fun top => toSlug top.1).getD ""

def dominantLanguage : String :=
  let counts := tally ((members.map fun n => n.input.language).filter (· ≠ ""))
  ((mostCommon (o.order (1 :: place) (entries counts))).map Prod.fst).getD ""

/-- The words `extract_keywords` counts. -/
def keywordsOf (n : NodeRow) : List String :=
  if n.input.kind ∈ ["Function", "Class", "Test", "Type"] then
    ((splitName n.input.name).map toLowercase).filter fun lower =>
      lower ∉ commonWords && 1 < lower.toList.length
  else []

def extractKeywords : List String :=
  let counts := tally (members.flatMap keywordsOf)
  ((ranked (o.order (2 :: place) (entries counts))).take 5).map Prod.fst

def topClass : Option String :=
  let counts := tally ((members.filter fun n => n.input.kind = "Class").map fun n => n.input.name)
  (mostCommon (o.order (3 :: place) (entries counts))).bind fun top =>
    if members.length * 40 / 100 < top.2 then some top.1 else none

def generateCommunityName : String :=
  if members.isEmpty then "empty"
  else
    let directory := extractFilePrefix o place members
    match topClass o place members with
    | some name => if directory = "" then toSlug name else directory ++ "-" ++ toSlug name
    | none =>
        let keyword := (extractKeywords o place members).head?.getD ""
        if directory ≠ "" && keyword ≠ "" then directory ++ "-" ++ keyword
        else if directory ≠ "" then directory
        else if keyword ≠ "" then keyword
        else "cluster"

theorem generateCommunityName_order (o o' : HashOrders) (place place' : List Nat)
    (members : List NodeRow) :
    generateCommunityName o place members = generateCommunityName o' place' members := by
  have hdirectory : extractFilePrefix o place members = extractFilePrefix o' place' members := by
    rw [extractFilePrefix, extractFilePrefix, mostCommon_of_perm (o.perm_order o' _ _ _)]
  have hclass : topClass o place members = topClass o' place' members := by
    rw [topClass, topClass, mostCommon_of_perm (o.perm_order o' _ _ _)]
  have hkeywords : extractKeywords o place members = extractKeywords o' place' members := by
    rw [extractKeywords, extractKeywords, ranked_of_perm (o.perm_order o' _ _ _)]
  rw [generateCommunityName, generateCommunityName, hdirectory, hclass, hkeywords]

theorem dominantLanguage_order (o o' : HashOrders) (place place' : List Nat)
    (members : List NodeRow) :
    dominantLanguage o place members = dominantLanguage o' place' members := by
  rw [dominantLanguage, dominantLanguage, mostCommon_of_perm (o.perm_order o' _ _ _)]

end Naming

end Communities

end Dagayn
