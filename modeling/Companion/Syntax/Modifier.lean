/-!
Modifier keywords of declarations. A declaration carries the list of modifiers written on it; the
stored form of such a list is a word with one bit a keyword.
-/

set_option autoImplicit false

namespace Companion

inductive Modifier where
  | publicAccess
  | privateAccess
  | protectedAccess
  | internalAccess
  | static
  | readonly
  | const
  | volatile
  | partialDecl
  | abstract
  | sealed
  | new
  | virtual
  | override
  | externDecl
  | unsafeDecl
  | async
  | required
  deriving DecidableEq, Repr

namespace Modifier

/-- Every modifier, by rising bit. -/
def all : List Modifier :=
  [publicAccess, privateAccess, protectedAccess, internalAccess, static, readonly, const, volatile,
   partialDecl, abstract, sealed, new, virtual, override, externDecl, unsafeDecl, async, required]

def keyword : Modifier → String
  | publicAccess => "public"
  | privateAccess => "private"
  | protectedAccess => "protected"
  | internalAccess => "internal"
  | static => "static"
  | readonly => "readonly"
  | const => "const"
  | volatile => "volatile"
  | partialDecl => "partial"
  | abstract => "abstract"
  | sealed => "sealed"
  | new => "new"
  | virtual => "virtual"
  | override => "override"
  | externDecl => "extern"
  | unsafeDecl => "unsafe"
  | async => "async"
  | required => "required"

/-- The position of the modifier's bit in a word: accessibility from 0, storage from 8, the shape
of types from 16, and the rest from 24. -/
def bit : Modifier → Nat
  | publicAccess => 0
  | privateAccess => 1
  | protectedAccess => 2
  | internalAccess => 3
  | static => 8
  | readonly => 9
  | const => 10
  | volatile => 11
  | partialDecl => 16
  | abstract => 17
  | sealed => 18
  | new => 24
  | virtual => 25
  | override => 26
  | externDecl => 27
  | unsafeDecl => 28
  | async => 29
  | required => 30

def ofKeyword? (word : String) : Option Modifier := all.find? (·.keyword = word)

/-- The modifiers whose bits are set in a word; other bits mean nothing. -/
def ofWord (word : Nat) : List Modifier := all.filter fun m => word.testBit m.bit

/-- The word of a list of modifiers. -/
def toWord (ms : List Modifier) : Nat := ms.foldl (fun word m => word ||| (1 <<< m.bit)) 0

/-- Whether a member is visible to derived types. Without an accessibility keyword it is private;
`private protected` is visible within the same assembly, where generated code lands. -/
def visibleToDerived (ms : List Modifier) : Bool :=
  ms.any fun m => m = publicAccess || m = protectedAccess || m = internalAccess

end Modifier
end Companion
