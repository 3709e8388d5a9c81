import ContentLang.Main
import ContentLang.Proofs.Choices.Stable
import ContentLang.Proofs.Collections.Combining
import ContentLang.Proofs.Deferral.Deferral
import ContentLang.Proofs.Grammar.Containment
import ContentLang.Proofs.Grammar.Recovery
import ContentLang.Proofs.Grammar.Stray
import ContentLang.Proofs.Grammar.Truncation
import ContentLang.Proofs.Identity.Unique
import ContentLang.Proofs.Including.Named
import ContentLang.Proofs.Including.Sound
import ContentLang.Proofs.Inlining.Root
import ContentLang.Proofs.Joining.Join
import ContentLang.Proofs.Lexing.Comments
import ContentLang.Proofs.Lexing.Tiling
import ContentLang.Proofs.Loading.DeferredIf
import ContentLang.Proofs.Loading.Independent
import ContentLang.Proofs.Loading.LateInclude
import ContentLang.Proofs.Loading.Loaded
import ContentLang.Proofs.Loading.Removal
import ContentLang.Proofs.Loading.Terminating
import ContentLang.Proofs.Memory.Change
import ContentLang.Proofs.Memory.Unready
import ContentLang.Proofs.Nodes.Overlays
import ContentLang.Proofs.Printing.RoundTrip
import ContentLang.Proofs.Readiness.Complete
import ContentLang.Proofs.Readiness.Monotone
import ContentLang.Proofs.Safety.Panics
import ContentLang.Proofs.Scoping.Root
import ContentLang.Proofs.Typed.Printed
import ContentLang.Proofs.Typed.Records
import ContentLang.Proofs.Walk.Siblings
import ContentLang.Toml.Record
