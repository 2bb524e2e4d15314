import MapAlgebra.Binding
import MapAlgebra.Script.Tree

/-! Lexical scopes and the table of all symbols of a script. -/

namespace MapAlgebra

/-- One level of scope: its name and its symbols, the newest first. -/
structure Scope where
  name : String
  symbols : List Symbol
deriving DecidableEq, Inhabited

namespace Scope

def lookup (scope : Scope) (name : String) : Option Symbol :=
  scope.symbols.find? (·.name == name)

def define (scope : Scope) (symbol : Symbol) : Scope :=
  { scope with symbols := symbol :: scope.symbols }

def lookupChain (scopes : List Scope) (name : String) : Option Symbol :=
  scopes.findSome? (·.lookup name)

def imageSymbols (bindings : Bindings) : List Symbol :=
  bindings.mapIdx fun slot b =>
    { name := b.name, role := .ofImage b.role, scope := "script", slot, persistent := false
      span := .none }

def root (bindings : Bindings) : Scope :=
  { name := "script", symbols := (imageSymbols bindings).reverse }

end Scope

/-- All symbols of a script: the images in the order of their bindings, the variables in the
order of their slots, and the outermost scope.
-/
structure SymbolTable where
  images : List Symbol
  locals : Array Symbol
  root : Scope

namespace SymbolTable

def image? (table : SymbolTable) (name : String) : Option Symbol :=
  table.images.find? (·.name == name)

def persistentSlots (table : SymbolTable) : List Nat :=
  (table.locals.toList.filter (·.persistent)).map (·.slot)

def localNames (table : SymbolTable) : List String :=
  table.locals.toList.map (·.name)

end SymbolTable

end MapAlgebra
