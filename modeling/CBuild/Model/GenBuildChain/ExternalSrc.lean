import CBuild.Text.References
import CBuild.Text.Sed

/-! # The source directory of a recipe

`Deps.get_env_vars` reads the assignments of `conf/local.conf` into `VarDict`. `Deps.add_yocto_item` takes the first
`EXTERNALSRC` of the `.bbappend` file and replaces the names of `VarDict` in it, in the order of the dictionary.
-/

namespace CBuild.Model.GenBuildChain

open Text References

/-- `\s*=\s*"(.*)"` behind a name: the text up to the last quotation mark. -/
def quotedValue (line : Text) : Option Text :=
  match line.dropWhile blank with
  | '=' :: rest =>
    match rest.dropWhile blank with
    | '"' :: value => beforeLast ['"'] value
    | _ => none
  | _ => none

/-- `regex.match(per_line)` of `get_env_vars`: a name and its value. -/
def matchAssignment (line : Text) : Option (Text × Text) :=
  let name := line.takeWhile References.nameChar
  if name = [] then none else (quotedValue (line.dropWhile References.nameChar)).map (name, ·)

end CBuild.Model.GenBuildChain
