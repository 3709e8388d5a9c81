import ContentLang.Entries
import ContentLang.Location

/-!
# Nodes

The tree of a content file. There are five kinds of nodes: a **token** is a value, a
**call** a function's name with parameters, a **statement** a call with data after it,
a **block** a record of keys and values, an **array** a list.

Every node has an **origin**: where it stands, which bindings are visible there, and
an identity (`uid`) that tells apart two copies of one piece of text. Origins are
about a node and not a part of what it says: `ContentLang.Node.same` never looks at
them. An origin holds bindings, whose values are nodes again, so tokens and origins
are declared over the type of nodes before that type is there
(`ContentLang.TokenOf`, `ContentLang.OriginOf`).

A token is content or one of the structural symbols. The null value is the symbol `~`,
which no content is equal to, not even a quoted `~`.
-/

namespace ContentLang

/-- The name a value is bound under: a token without its surroundings. -/
structure Label where
  value : String
  isContent : Bool
  location : Location
  deriving Inhabited

/-- Labels are equal when they read the same. -/
instance : BEq Label := ⟨fun a b => a.value == b.value && a.isContent == b.isContent⟩

/-- Where a node comes from; `ν` is the type of the values bound there. -/
structure OriginOf (ν : Type) where
  location : Location
  /-- How many characters of the text the node's first token covers. -/
  length : Nat
  /-- What is bound at the node. -/
  context : List (Label × ν)
  /-- The node's identity. -/
  uid : String
  deriving Inhabited

/-- A value, or a structural symbol of the text. -/
structure TokenOf (ν : Type) where
  value : String
  /-- Whether this is content, and not a structural symbol. -/
  isContent : Bool
  /-- Whether any of the content stood between quotes. -/
  quoted : Bool
  origin : OriginOf ν
  deriving Inhabited

/-- A node of the tree. -/
inductive Node where
  | token (t : TokenOf Node)
  | call (function : String) (params : List Node) (origin : OriginOf Node)
  | statement (function : String) (params : List Node) (origin : OriginOf Node) (data : Node)
  | block (entries : List (TokenOf Node × Node)) (origin : OriginOf Node)
  | array (items : List Node) (origin : OriginOf Node)

abbrev Origin := OriginOf Node

abbrev Token := TokenOf Node

/-- The bindings visible at some place. -/
abbrev Context := Entries Label Node

/-- A function's name with its parameters: what a call says, and the front of a
statement. -/
structure Call where
  function : String
  params : List Node
  origin : Origin

/-! ### Origins -/

namespace OriginOf

variable {ν : Type}

/-- The origin of what stands at a location: nothing is bound, and the location gives
the identity. -/
def written (location : Location) (length : Nat) : OriginOf ν :=
  ⟨location, length, [], location.text⟩

/-- The origin of what was not written anywhere. -/
def unwritten : OriginOf ν := ⟨Location.nowhere, 0, [], ""⟩

end OriginOf

/-! ### Tokens -/

/-- The spelling of the null value. -/
def nullSymbol : String := "~"

/-- The value put in place of what could not be reduced. -/
def errorValue : String := "error"

namespace TokenOf

variable {ν : Type}

/-- Tokens are equal when they read the same, wherever they stand. -/
instance : BEq (TokenOf ν) := ⟨fun a b => a.value == b.value && a.isContent == b.isContent⟩

/-- A content token. -/
def content (value : String) (origin : OriginOf ν) : TokenOf ν := ⟨value, true, false, origin⟩

/-- A structural symbol. -/
def symbol (c : Char) (origin : OriginOf ν) : TokenOf ν :=
  ⟨String.singleton c, false, false, origin⟩

/-- The null value. -/
def null (origin : OriginOf ν) : TokenOf ν := ⟨nullSymbol, false, false, origin⟩

/-- The placeholder for what could not be reduced. -/
def error (origin : OriginOf ν) : TokenOf ν := content errorValue origin

/-- A content token that was not written anywhere, to look up entries with. -/
def key (value : String) : TokenOf ν := content value .unwritten

/-- Whether this is the null value. -/
def isNull (t : TokenOf ν) : Bool := !t.isContent && t.value == nullSymbol

/-- Whether this is the given structural symbol. -/
def isSymbol (t : TokenOf ν) (c : Char) : Bool := !t.isContent && t.value == String.singleton c

/-- Whether this is content that reads `true`, letters from `A` to `Z` counting as
small ones. -/
def isTrue (t : TokenOf ν) : Bool := t.isContent && t.value.map Char.toLower == "true"

/-- What a token is called when a value is bound under it. -/
def label (t : TokenOf ν) : Label := ⟨t.value, t.isContent, t.origin.location⟩

end TokenOf

/-! ### Kinds -/

/-- What sort of thing a reduction found. -/
inductive Kind where
  | null
  | value
  | call
  | statement
  | block
  | array
  | nothing
  deriving DecidableEq

/-- The word for a kind. -/
def Kind.text : Kind → String
  | null => "null"
  | value => "value"
  | call => "function call"
  | statement => "statement"
  | block => "block"
  | array => "array"
  | nothing => "nothing"

/-! ### Parts of nodes -/

namespace Node

/-- Where a node comes from. A statement comes from where its call does. -/
def origin : Node → Origin
  | token t => t.origin
  | call _ _ o => o
  | statement _ _ o _ => o
  | block _ o => o
  | array _ o => o

/-- The same node from elsewhere. -/
def withOrigin (o : Origin) : Node → Node
  | token t => token { t with origin := o }
  | call f ps _ => call f ps o
  | statement f ps _ d => statement f ps o d
  | block es _ => block es o
  | array is _ => array is o

/-- Where a node stands. -/
def location (n : Node) : Location := n.origin.location

/-- The same node with other bindings visible. -/
def withContext (n : Node) (context : Context) : Node :=
  n.withOrigin { n.origin with context }

/-- What sort of node this is. -/
def kind : Node → Kind
  | token t => if t.isNull then .null else .value
  | call .. => .call
  | statement .. => .statement
  | block .. => .block
  | array .. => .array

/-- The name of the function that a call or statement calls. -/
def function? : Node → Option String
  | call f _ _ => some f
  | statement f _ _ _ => some f
  | _ => none

/-- Whether this is the null value. -/
def isNull : Node → Bool
  | token t => t.isNull
  | _ => false

/-- The token, if this is one. -/
def token? : Node → Option Token
  | token t => some t
  | _ => none

/-- The entries, if this is a block. -/
def entries? : Node → Option (Entries Token Node)
  | block es _ => some es
  | _ => none

/-- The items, if this is an array. -/
def items? : Node → Option (List Node)
  | array is _ => some is
  | _ => none

/-- A call as a node. -/
def ofCall (c : Call) : Node := call c.function c.params c.origin

/-- A call with data as a node. -/
def ofStatement (c : Call) (data : Node) : Node := statement c.function c.params c.origin data

end Node

/-! ### Equality -/

namespace Node

mutual

/-- **Whether two nodes say the same.** Origins are not compared, and neither are the
quotes of tokens; entries have to be in the same order. -/
def same : Node → Node → Bool
  | token s, token t => s == t
  | call f ps _, call g qs _ => f == g && sameAll ps qs
  | statement f ps _ d, statement g qs _ e => f == g && sameAll ps qs && same d e
  | block es _, block fs _ => sameEntries es fs
  | array is _, array js _ => sameAll is js
  | _, _ => false

/-- Whether two lists of nodes say the same, one by one. -/
def sameAll : List Node → List Node → Bool
  | [], [] => true
  | m :: ms, n :: ns => same m n && sameAll ms ns
  | _, _ => false

/-- Whether two lists of entries have the same keys with the same values, one by one. -/
def sameEntries : List (TokenOf Node × Node) → List (TokenOf Node × Node) → Bool
  | [], [] => true
  | (k, m) :: es, (l, n) :: fs => k == l && same m n && sameEntries es fs
  | _, _ => false

end

instance : BEq Node := ⟨same⟩

/-! ### Identities -/

mutual

/-- Puts a mark before the identities of a node and of all that is in it. The keys of
blocks keep theirs. -/
def markUid (mark : String) : Node → Node
  | token t => token { t with origin := { t.origin with uid := mark ++ t.origin.uid } }
  | call f ps o => call f (markUids mark ps) { o with uid := mark ++ o.uid }
  | statement f ps o d =>
    statement f (markUids mark ps) { o with uid := mark ++ o.uid } (markUid mark d)
  | block es o => block (markEntryUids mark es) { o with uid := mark ++ o.uid }
  | array is o => array (markUids mark is) { o with uid := mark ++ o.uid }

/-- Puts a mark before the identities in a list. -/
def markUids (mark : String) : List Node → List Node
  | [] => []
  | n :: ns => markUid mark n :: markUids mark ns

/-- Puts a mark before the identities of the values of entries. -/
def markEntryUids (mark : String) :
    List (TokenOf Node × Node) → List (TokenOf Node × Node)
  | [] => []
  | (k, n) :: es => (k, markUid mark n) :: markEntryUids mark es

end

/-! ### Calls -/

mutual

/-- **The calls in a node**, those of statements too: a call comes before those in its
parameters, and these before those in the data after it. -/
def calls : Node → List Call
  | token _ => []
  | call f ps o => ⟨f, ps, o⟩ :: callsOfAll ps
  | statement f ps o d => ⟨f, ps, o⟩ :: (callsOfAll ps ++ calls d)
  | block es _ => callsOfEntries es
  | array is _ => callsOfAll is

/-- The calls in a list of nodes. -/
def callsOfAll : List Node → List Call
  | [] => []
  | n :: ns => calls n ++ callsOfAll ns

/-- The calls in the values of entries. -/
def callsOfEntries : List (TokenOf Node × Node) → List Call
  | [] => []
  | (_, n) :: es => calls n ++ callsOfEntries es

end

end Node

end ContentLang
