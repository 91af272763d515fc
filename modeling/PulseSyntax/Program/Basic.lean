import PulseSyntax.Block.Basic
import PulseSyntax.Markup.Basic
import PulseSyntax.Style.Basic

namespace PulseSyntax

inductive ImportKind where
  | default | named | namespace_
deriving DecidableEq, Repr

def ImportKind.name : ImportKind → String
  | default => "default"
  | named => "named"
  | namespace_ => "namespace"

structure ImportSpecifier where
  kind : ImportKind
  imported : String
  local_ : String
  span : Span

/-- An import; without specifiers it is for its effects. -/
structure Import where
  specifiers : List ImportSpecifier
  source : String
  span : Span

structure PageDecl where
  name : String
  span : Span

structure RouteDecl where
  path : String
  span : Span

/-- What a component file declares. Imports may be many; all else occurs at most once. -/
structure Declarations where
  imports : List Import
  page : Option PageDecl
  route : Option RouteDecl
  props : Option PropertyBlock
  state : Option PropertyBlock
  view : Option ViewBlock
  actions : Option ActionsBlock
  style : Option StyleBlock
  router : Option RouterBlock
  store : Option StoreBlock

def Declarations.empty : Declarations :=
  ⟨[], none, none, none, none, none, none, none, none, none⟩

structure Program extends Declarations where
  span : Span

end PulseSyntax
