import ContentLang.Entries
import ContentLang.Path

/-!
# Settings

What an engine and its host are told from outside: where content lies, the identity of
the content pack, the seed, and answers to conditions that are fixed.
-/

namespace ContentLang

/-- The settings of an engine. -/
structure Settings where
  /-- The directory that all content paths start from. -/
  contentRoot : String
  /-- What `&` stands for in content. -/
  uniqueId : String
  /-- The seed of the engine's own generator, if it is not to differ from run to run. -/
  seed : Option UInt64
  /-- How deep files may include one another. -/
  maxIncludeDepth : Nat
  /-- The folder that a file system host puts asset names in. -/
  assetFolder : Option String
  /-- Fixed answers to conditions. -/
  conditions : Entries String Bool

namespace Settings

/-- The settings that hold where nothing else is said. -/
def standard : Settings where
  contentRoot := "."
  uniqueId := ""
  seed := none
  maxIncludeDepth := 32
  assetFolder := none
  conditions := []

/-- Where the file at a path from the content root lies. -/
def contentPath (s : Settings) (path : String) : String :=
  Path.join s.contentRoot (Path.normalize path)

end Settings

end ContentLang
