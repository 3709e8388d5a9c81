import ContentLang.Yaml.Label

/-!
# Tokens of yaml texts

What a yaml text is made of: scalars and their labels, and what tells collections and
documents. Not all tokens are written.

| token | where it stands |
|---|---|
| `openSequence`, `openMapping` | before a part that stands right of what holds it |
| `close` | where a line begins left of an open collection |
| `key` | before what a colon follows, or a question mark |
-/

namespace ContentLang

namespace Yaml

/-- A token. -/
inductive Token where
  | directive
  | documentStart
  | documentEnd
  /-- A collection by indentation opens. -/
  | openSequence
  | openMapping
  /-- A collection by indentation closes. -/
  | close
  | openBracket
  | closeBracket
  | openBrace
  | closeBrace
  | comma
  | item
  | key
  | value
  | anchor (name : String)
  | alias (name : String)
  | tag (t : Tag)
  | scalar (text : String) (isPlain : Bool)
  deriving DecidableEq

end Yaml

end ContentLang
