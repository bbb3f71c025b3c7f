import MembershipLowering.Logging
import MembershipLowering.Lowering.Run
import MembershipLowering.Membership.Rehearsal
import MembershipLowering.Options.File
import MembershipLowering.Proofs.Lowering.Refinement
import MembershipLowering.Proofs.Expr.Subterms
import MembershipLowering.Proofs.Expr.Depth
import MembershipLowering.Proofs.Lowering.Ending
import MembershipLowering.Proofs.Lowering.EffectOrder
import MembershipLowering.Proofs.Lowering.Retokenizing
import MembershipLowering.Proofs.Lowering.Outcome
import MembershipLowering.Proofs.Lowering.Limit
import MembershipLowering.Proofs.Expr.Parentheses
import MembershipLowering.Proofs.Lowering.Temporaries
import MembershipLowering.Proofs.JavaScript.Grouping
import MembershipLowering.Proofs.JavaScript.Translation
import MembershipLowering.Proofs.Lowering.Grouping
import MembershipLowering.Proofs.Draft.History
import MembershipLowering.Proofs.Arena.Precedence
import MembershipLowering.Proofs.Phrase.RoundTrip
import MembershipLowering.Proofs.Lowering.Joining
import MembershipLowering.Proofs.Token.Layout
import MembershipLowering.Proofs.Lowering.Visits
import MembershipLowering.Proofs.Lowering.Fixpoint
import MembershipLowering.Proofs.Token.Resuming
import MembershipLowering.Proofs.Token.Bytewise
import MembershipLowering.Proofs.Arena.Operators
import MembershipLowering.Proofs.Lowering.Flipping
import MembershipLowering.Proofs.Lowering.Negation
import MembershipLowering.Proofs.Arena.Newlines
import MembershipLowering.Proofs.Draft.Commuting
import MembershipLowering.Proofs.Draft.Keeping
import MembershipLowering.Proofs.Lowering.Locality
import MembershipLowering.Proofs.Lowering.Looseness
import MembershipLowering.Proofs.Names.History
import MembershipLowering.Proofs.Arena.Purity
import MembershipLowering.Proofs.Lowering.Moves
import MembershipLowering.Proofs.Lowering.Naming
import MembershipLowering.Proofs.Membership.Recording
import MembershipLowering.Proofs.Token.Vocabulary
import MembershipLowering.Proofs.Logging.Filter
import MembershipLowering.Proofs.Options.Reading
