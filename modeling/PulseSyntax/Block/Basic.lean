import PulseSyntax.Expr.Basic

namespace PulseSyntax

structure Property where
  name : String
  value : Expr
  span : Span

structure PropertyBlock where
  properties : List Property
  span : Span

/-- A parameter of a function; `rest` says that it takes all further arguments. -/
structure Param where
  name : String
  default : Option Expr
  rest : Bool
  span : Span

structure Action where
  name : String
  params : List Param
  body : TokenRange
  isAsync : Bool
  span : Span

structure ActionsBlock where
  functions : List Action
  span : Span

structure Route where
  path : String
  handler : Expr
  span : Span

/-- A function that runs before or after each navigation. -/
structure Guard where
  name : String
  params : List Param
  body : TokenRange
  span : Span

structure RouterBlock where
  mode : Option String
  base : Option String
  routes : List Route
  beforeEach : Option Guard
  afterEach : Option Guard
  span : Span

structure Getter where
  name : String
  body : TokenRange
  span : Span

structure StoreBlock where
  state : Option PropertyBlock
  getters : List Getter
  actions : Option ActionsBlock
  persist : Option Bool
  storageKey : Option String
  plugins : Option Expr
  span : Span

end PulseSyntax
