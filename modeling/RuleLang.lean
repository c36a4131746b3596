import RuleLang.Main
import RuleLang.Proofs.Lexing.InPlace
import RuleLang.Proofs.Lexing.Widening
import RuleLang.Proofs.Number.InPlace
import RuleLang.Proofs.Parsing.Brackets
import RuleLang.Proofs.Parsing.Heights
import RuleLang.Proofs.Parsing.Unfinished
import RuleLang.Proofs.Parsing.Variables
import RuleLang.Proofs.Pattern.Form
import RuleLang.Proofs.Rendering.RoundTrip
import RuleLang.Proofs.Reporting.Agreement
import RuleLang.Proofs.Reporting.Layout
import RuleLang.Proofs.Typing.Declared
import RuleLang.Proofs.Typing.Growth
import RuleLang.Proofs.Typing.Literals
import RuleLang.Proofs.Typing.Presence
import RuleLang.Proofs.Typing.Trust
