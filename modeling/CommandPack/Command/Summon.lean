import CommandPack.Argument

/-!
# Tags in summon commands

A summoned object gets a tag through the data at the end of its command. The tag
goes to the front of the first tag list, or into the data compound, or into new
data, whichever is there.
-/

namespace CommandPack.Summon

def withTag (command tag : String) : String :=
  let command := Text.trim command
  let entry := "\"" ++ tag ++ "\""
  if (Text.cut? "Tags:[]" command).isSome then
    Text.replaceFirst "Tags:[]" ("Tags:[" ++ entry ++ "]") command
  else if (Text.cut? "Tags:[" command).isSome then
    Text.replaceFirst "Tags:[" ("Tags:[" ++ entry ++ ",") command
  else
    match Text.dropEnd? "\x7b\x7d" command with
    | some before => before ++ "\x7bTags:[" ++ entry ++ "]\x7d"
    | none =>
      match Text.dropEnd? "\x7d" command with
      | some before => before ++ ",Tags:[" ++ entry ++ "]\x7d"
      | none =>
        if (Argument.split command).length ≤ 2 then
          command ++ " ~ ~ ~ \x7bTags:[" ++ entry ++ "]\x7d"
        else
          command ++ " \x7bTags:[" ++ entry ++ "]\x7d"

end CommandPack.Summon
