import CommandPack.Text.Search

/-!
# Shielded source text

Source text that reads like a mark or a placeholder gets the character U+0001
after its exclamation mark, so that linking does not take it for one. Afterwards
every U+0001 is removed again.
-/

namespace CommandPack.Shield

/-- Makes source text free of marks and placeholders. -/
def apply (text : String) : String :=
  Text.replaceAll "!s\x7b" "!\x01s\x7b" (Text.replaceAll "!f\x7b" "!\x01f\x7b" text)

/-- Removes every shielding character. -/
def remove (text : String) : String :=
  String.ofList ((Text.chars text).filter (· ≠ '\x01'))

end CommandPack.Shield
