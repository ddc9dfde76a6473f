import Std.Data.ExtTreeMap

/-!
Keys and finite maps from them. Maps are equal if they hold the same entries, and they list their
entries in the order of their keys.
-/

namespace CacheServer

/-- A primary or a secondary key. Keys are ordered by the code points of their characters. -/
abbrev Key : Type := String

/-- A finite map from keys. -/
abbrev KeyMap (α : Type) : Type := Std.ExtTreeMap Key α

end CacheServer
