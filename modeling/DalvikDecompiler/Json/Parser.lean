import DalvikDecompiler.Json.Token

/-!
# Reading JSON text

**Input.** The tokens of a text.

**Algorithm.** One token is taken after another.  The arrays and objects that
are still open wait on a stack, the innermost one first, each with what it has
already; a value that is complete goes to the innermost one.  Of two members
with one name the later one counts.

**Results.** The value, if the text is one value and nothing else, and no more
than 127 arrays and objects stand inside one another.
-/

namespace DalvikDecompiler
namespace Json

/-- An array or object that is still open, its items or members last first.  An object waits for
the value of a member. -/
inductive Frame where
  | array (done : List Json)
  | object (done : List (String × Json)) (name : String)

/-- What has been read so far, and thereby what may follow. -/
inductive ParseState where
  /-- A value has to follow. -/
  | beforeValue (stack : List Frame)
  /-- An item follows, or the end of the array. -/
  | openedArray (stack : List Frame)
  /-- A member follows, or the end of the object. -/
  | openedObject (stack : List Frame)
  /-- A member has to follow. -/
  | beforeMember (done : List (String × Json)) (stack : List Frame)
  /-- A colon has to follow. -/
  | behindName (done : List (String × Json)) (name : String) (stack : List Frame)
  /-- A value is complete. -/
  | behindValue (value : Json) (stack : List Frame)

/-- How many arrays and objects may stand inside one another. -/
def nestingLimit : Nat :=
  127

/-- Add a member in front of others, in place of one with the same name. -/
def putMember (name : String) (value : Json) (members : List (String × Json)) :
    List (String × Json) :=
  (name, value) :: members.filter fun m => m.1 != name

namespace ParseState

/-- Take the first token of a value. -/
def enterValue (stack : List Frame) : Token → Option ParseState
  | .plain value => some (.behindValue value stack)
  | .text s => some (.behindValue (.string s) stack)
  | .openArray => if stack.length < nestingLimit then some (.openedArray stack) else none
  | .openObject => if stack.length < nestingLimit then some (.openedObject stack) else none
  | _ => none

/-- Take the name of a member. -/
def enterMember (done : List (String × Json)) (stack : List Frame) : Token → Option ParseState
  | .text name => some (.behindName done name stack)
  | _ => none

/-- Take the token behind a value. -/
def leaveValue (value : Json) : List Frame → Token → Option ParseState
  | .array done :: stack, .comma => some (.beforeValue (.array (value :: done) :: stack))
  | .array done :: stack, .closeArray =>
      some (.behindValue (.array (value :: done).reverse) stack)
  | .object done name :: stack, .comma => some (.beforeMember (putMember name value done) stack)
  | .object done name :: stack, .closeObject =>
      some (.behindValue (.object (putMember name value done).reverse) stack)
  | _, _ => none

/-- Take a token. -/
def step : ParseState → Token → Option ParseState
  | .beforeValue stack, token => enterValue stack token
  | .openedArray stack, .closeArray => some (.behindValue (.array []) stack)
  | .openedArray stack, token => enterValue (.array [] :: stack) token
  | .openedObject stack, .closeObject => some (.behindValue (.object []) stack)
  | .openedObject stack, token => enterMember [] stack token
  | .beforeMember done stack, token => enterMember done stack token
  | .behindName done name stack, .colon => some (.beforeValue (.object done name :: stack))
  | .behindName .., _ => none
  | .behindValue value stack, token => leaveValue value stack token

/-- The value, if nothing is open at the end. -/
def finish : ParseState → Option Json
  | .behindValue value [] => some value
  | _ => none

end ParseState

/-- The value that tokens stand for. -/
def ofTokens? (tokens : List Token) : Option Json :=
  (tokens.foldlM ParseState.step (.beforeValue [])).bind ParseState.finish

/-- The value that a text stands for. -/
def parse? (text : String) : Option Json :=
  (tokens? text.toList).bind ofTokens?

end Json
end DalvikDecompiler
