import Dagayn.Text
import Dagayn.Utf8

/-!
# The language of a file

`detect_language` goes by the name of a file, and by the shebang of a file whose name has no
extension; `is_binary` by the bytes at its front.
-/

namespace Dagayn

namespace Languages

def extensionToLanguage : List (String × String) :=
  [(".py", "python"), (".js", "javascript"), (".jsx", "javascript"), (".ts", "typescript"),
    (".tsx", "tsx"), (".go", "go"), (".rs", "rust"), (".java", "java"), (".cs", "csharp"),
    (".rb", "ruby"), (".cpp", "cpp"), (".cc", "cpp"), (".cxx", "cpp"), (".c", "c"), (".h", "c"),
    (".hpp", "cpp"), (".kt", "kotlin"), (".kts", "kotlin"), (".swift", "swift"), (".php", "php"),
    (".scala", "scala"), (".vue", "vue"), (".dart", "dart"), (".r", "r"), (".mjs", "javascript"),
    (".cjs", "javascript"), (".mts", "typescript"), (".cts", "typescript"),
    (".astro", "typescript"), (".pl", "perl"), (".pm", "perl"), (".t", "perl"), (".xs", "c"),
    (".lua", "lua"), (".m", "objc"), (".mm", "objc"), (".sh", "bash"), (".bash", "bash"),
    (".zsh", "bash"), (".ksh", "bash"), (".ex", "elixir"), (".exs", "elixir"),
    (".ipynb", "notebook"), (".zig", "zig"), (".ps1", "powershell"), (".psm1", "powershell"),
    (".psd1", "powershell"), (".svelte", "svelte"), (".jl", "julia"), (".gd", "gdscript"),
    (".tf", "terraform"), (".tfvars", "terraform"), (".md", "markdown"), (".markdown", "markdown")]

def shebangToLanguage : List (String × String) :=
  [("bash", "bash"), ("sh", "bash"), ("zsh", "bash"), ("ksh", "bash"), ("dash", "bash"),
    ("ash", "bash"), ("python", "python"), ("python2", "python"), ("python3", "python"),
    ("pypy", "python"), ("pypy3", "python"), ("node", "javascript"), ("nodejs", "javascript"),
    ("ruby", "ruby"), ("perl", "perl"), ("lua", "lua"), ("Rscript", "r"), ("php", "php")]

def compoundExtensions : List (String × String) :=
  [(".tftest.hcl", "terraform"), (".tfcomponent.hcl", "terraform"), (".tfdeploy.hcl", "terraform"),
    (".tfquery.hcl", "terraform"), (".tf.json", "terraform"), (".tfvars.json", "terraform")]

/-- `Path::extension` of a file's name. -/
def extensionOf (name : List Char) : Option (List Char) :=
  let ext := name.rtakeWhile (· ≠ '.')
  -- without a dot, or with nothing in front of the last one, there is none
  if ext.length + 1 < name.length then some ext else none

def fromUtf8 (bytes : List UInt8) : Option (List Char) :=
  let text := fromUtf8Lossy bytes
  if utf8 text = bytes then some text else none

def detectLanguageFromShebangBytes (head : List UInt8) : Option String :=
  if (utf8 "#!".toList).isPrefixOf head then
    let firstLine := (head.takeWhile (· ≠ 10)).takeWhile (· ≠ 0)
    (fromUtf8 (firstLine.drop 2)).bind fun line =>
      match ((trim line).splitOnP isWhitespace).filter (· ≠ []) with
      | [] => none
      | first :: arguments =>
          let basename (token : List Char) := token.rtakeWhile (· ≠ '/')
          let interpreter :=
            if "/env".toList.isSuffixOf first || first = "env".toList then
              (arguments.find? fun token => token.head? ≠ some '-').map basename
            else some (basename first)
          interpreter.bind fun name => shebangToLanguage.lookup (String.ofList name)
  else none

/-- `detect_language`, by the last component of a path and the bytes of the file, if it can be
read. -/
def detectLanguage (name : Option (List Char)) (bytes : Option (List UInt8)) : Option String :=
  let nameLower := (name.getD []).map Char.toLower
  match compoundExtensions.find? fun c => c.1.toList.isSuffixOf nameLower with
  | some (_, language) => some language
  | none =>
      let ext := name.bind extensionOf
      let suffix := ext.map fun ext => String.ofList ('.' :: ext.map Char.toLower)
      (suffix.bind fun suffix => extensionToLanguage.lookup suffix).or <|
        if ext.isNone then bytes.bind fun bytes => detectLanguageFromShebangBytes (bytes.take 256)
        else none

/-- `is_binary`; a file that cannot be read counts as one. -/
def isBinary (bytes : Option (List UInt8)) : Bool :=
  bytes.all fun bytes => 0 ∈ bytes.take 8192

example : detectLanguage (some "run".toList)
    (some (utf8 "#!/usr/bin/env -S python3 -u\nprint()\n".toList)) = some "python" := by
  decide +kernel

end Languages

end Dagayn
