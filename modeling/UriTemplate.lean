import UriTemplate.Router
import UriTemplate.Percent.Lemmas
import UriTemplate.Template.Node.Lemmas
import UriTemplate.Proofs.Matching.Candidates
import UriTemplate.Proofs.Matching.Memory
import UriTemplate.Proofs.Matching.Fill
import UriTemplate.Proofs.Matching.Split
import UriTemplate.Proofs.RoundTrip.Alphabet
import UriTemplate.Proofs.RoundTrip.Written
import UriTemplate.Proofs.Template.WellFormed
import UriTemplate.Proofs.RoundTrip.Stretch
import UriTemplate.Proofs.RoundTrip.Reading
import UriTemplate.Proofs.RoundTrip.Taking
import UriTemplate.Proofs.RoundTrip.Contributions
import UriTemplate.Proofs.RoundTrip.Accepted
import UriTemplate.Proofs.RoundTrip.Scalars
import UriTemplate.Proofs.RoundTrip.Delimited
import UriTemplate.Proofs.Expansion.Sequential
import UriTemplate.Proofs.Template.Grammar
import UriTemplate.Proofs.Template.Productions
import UriTemplate.Proofs.Template.Recognition
import UriTemplate.Proofs.Template.Printing
import UriTemplate.Proofs.RoundTrip.Queries
import UriTemplate.Proofs.RoundTrip.EncodedNames
import UriTemplate.Proofs.Matching.Names
import UriTemplate.Proofs.Matching.Positions
import UriTemplate.Proofs.Matching.Groups
import UriTemplate.Proofs.Matching.Errors
import UriTemplate.Proofs.Matching.Merging
import UriTemplate.Proofs.Percent.Runs
import UriTemplate.Proofs.Percent.Separators
import UriTemplate.Proofs.Router.FirstMatch
import UriTemplate.Proofs.Expansion.Confined
import UriTemplate.Proofs.Matching.Strictness
import UriTemplate.Proofs.Matching.Rounds
import UriTemplate.Proofs.Matching.Meaning
import UriTemplate.Proofs.RoundTrip.Optional
import UriTemplate.Proofs.RoundTrip.Paths
import UriTemplate.Proofs.Matching.Shares
import UriTemplate.Proofs.Matching.Refusals
import UriTemplate.Proofs.Matching.Repeated
import UriTemplate.Proofs.Matching.Reordering
import UriTemplate.Proofs.Matching.Walk
import UriTemplate.Proofs.RoundTrip.Leaves
import UriTemplate.Proofs.RoundTrip.BackToUrl
import UriTemplate.Proofs.Template.Composition
import UriTemplate.Proofs.Template.ParseErrors
import UriTemplate.Proofs.Matching.Shapes
import UriTemplate.Proofs.Expansion.Undefined
import UriTemplate.Proofs.Expansion.Pruning
import UriTemplate.Proofs.Expansion.Readings
import UriTemplate.Proofs.Expansion.Keywords
import UriTemplate.Proofs.RoundTrip.PlainValues
import UriTemplate.Proofs.Matching.Visits
