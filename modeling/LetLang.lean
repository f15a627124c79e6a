import LetLang.Main
import LetLang.Proofs.Catalog.Extension
import LetLang.Proofs.CommandLine.Agreement
import LetLang.Proofs.Compiler.Diagnostics
import LetLang.Proofs.Compiler.Layout
import LetLang.Proofs.Compiler.Literals
import LetLang.Proofs.Compiler.Overhang
import LetLang.Proofs.Compiler.Pieces
import LetLang.Proofs.Java.Indentation
import LetLang.Proofs.Java.KeptTypes
import LetLang.Proofs.Outline.Faithful
import LetLang.Proofs.Scope.History
import LetLang.Proofs.Span.Lattice
import LetLang.Proofs.Text.Quotation
import LetLang.Proofs.Token.Offences
import LetLang.Proofs.Token.Respelling
import LetLang.Proofs.Tree.Cursor.Progress
import LetLang.Proofs.Tree.Excerpts
import LetLang.Proofs.Tree.Layers
import LetLang.Proofs.Typing.Annotations
import LetLang.Proofs.Typing.Effects
import LetLang.Proofs.Typing.Renaming
import LetLang.Proofs.Typing.Views
import LetLang.Proofs.Typing.Void
import LetLang.Session
