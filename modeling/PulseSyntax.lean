import PulseSyntax.Main
import PulseSyntax.Proofs.Command.Directory
import PulseSyntax.Proofs.Diagnostic.Excerpt
import PulseSyntax.Proofs.Diagnostic.Paint
import PulseSyntax.Proofs.Expr.Contextual
import PulseSyntax.Proofs.Expr.Extent
import PulseSyntax.Proofs.Expr.Lookahead
import PulseSyntax.Proofs.Expr.Sound
import PulseSyntax.Proofs.Markup.Escapes
import PulseSyntax.Proofs.Markup.Plain
import PulseSyntax.Proofs.Markup.Template
import PulseSyntax.Proofs.Program.Blocks
import PulseSyntax.Proofs.Program.Branches
import PulseSyntax.Proofs.Program.Clears
import PulseSyntax.Proofs.Program.Depth
import PulseSyntax.Proofs.Program.Encoding
import PulseSyntax.Proofs.Program.Fails
import PulseSyntax.Proofs.Program.Heights
import PulseSyntax.Proofs.Program.Params
import PulseSyntax.Proofs.Program.Permuted
import PulseSyntax.Proofs.Program.Roles
import PulseSyntax.Proofs.Program.Separators
import PulseSyntax.Proofs.Program.Progress
import PulseSyntax.Proofs.Program.Repeats
import PulseSyntax.Proofs.Program.Spans
import PulseSyntax.Proofs.Program.Twin
import PulseSyntax.Proofs.Program.Views
import PulseSyntax.Proofs.Style.Gaps
import PulseSyntax.Proofs.Style.Lookahead
import PulseSyntax.Proofs.Style.Tidy
import PulseSyntax.Proofs.Token.Append
import PulseSyntax.Proofs.Token.Closing
import PulseSyntax.Proofs.Token.Compound
import PulseSyntax.Proofs.Token.Confined
import PulseSyntax.Proofs.Token.Enclosed
import PulseSyntax.Proofs.Token.Literals
import PulseSyntax.Proofs.Token.Underscores
