import ThemeSheet.Main
import ThemeSheet.Proofs.Theme.Substitution
import ThemeSheet.Proofs.Fade.RoundTrip
import ThemeSheet.Proofs.Marker.RoundTrip
import ThemeSheet.Proofs.Theme.Sharing
import ThemeSheet.Proofs.Theme.Digest
import ThemeSheet.Proofs.Css.Declaration
import ThemeSheet.Proofs.Css.Echo
import ThemeSheet.Proofs.Css.Nesting
import ThemeSheet.Proofs.Css.Printing
import ThemeSheet.Proofs.Css.Pruning
import ThemeSheet.Proofs.Css.Range
import ThemeSheet.Proofs.Css.Reprinting
import ThemeSheet.Proofs.Css.Rereading
import ThemeSheet.Proofs.Color.Computed
import ThemeSheet.Proofs.Css.Idempotence
import ThemeSheet.Proofs.Fade.Computed
import ThemeSheet.Proofs.Theme.Palette
import ThemeSheet.Proofs.Theme.Passes
import ThemeSheet.Proofs.Theme.Seeds
import ThemeSheet.Proofs.Variable.Collection
import ThemeSheet.Proofs.Css.Layout
import ThemeSheet.Proofs.Css.Minify
import ThemeSheet.Proofs.File.Place
import ThemeSheet.Proofs.Less.Bundle
import ThemeSheet.Proofs.Marker.Ownership
import ThemeSheet.Proofs.Fade.Outermost
import ThemeSheet.Proofs.Fade.Attribution
import ThemeSheet.Proofs.Style.Token
import ThemeSheet.Proofs.Style.Value
import ThemeSheet.Proofs.Style.Schedule
import ThemeSheet.Proofs.Style.Import
import ThemeSheet.Proofs.Theme.Definition
import ThemeSheet.Proofs.Theme.Literal
import ThemeSheet.Proofs.Css.Reflow
import ThemeSheet.Proofs.Theme.Keeping
import ThemeSheet.Proofs.Css.Concatenation
import ThemeSheet.Proofs.Css.Overlooked
import ThemeSheet.Proofs.Variable.Definition
import ThemeSheet.Proofs.Less.Prefixed
import ThemeSheet.Proofs.Color.Classify
import ThemeSheet.Proofs.Css.Slashes
import ThemeSheet.Proofs.File.Package
import ThemeSheet.Proofs.Less.Target
import ThemeSheet.Proofs.Fade.History
import ThemeSheet.Proofs.Less.Kept
import ThemeSheet.Proofs.Color.Skipped
import ThemeSheet.Proofs.Color.Opacity
import ThemeSheet.Proofs.Text.Pattern
