import SecretBallot.Main
import SecretBallot.Tally.Event
import SecretBallot.Ballot.Seal
import SecretBallot.Proofs.Digits
import SecretBallot.Proofs.Election
import SecretBallot.Proofs.Tally.Report
import SecretBallot.Proofs.Ceremony.Run
import SecretBallot.Proofs.Ceremony.Dealers
import SecretBallot.Proofs.Wire.Reader
import SecretBallot.Proofs.Wire.RoundTrip
import SecretBallot.Proofs.Completion
import SecretBallot.Proofs.Group.Primality
import SecretBallot.Proofs.Group.Exponents
import SecretBallot.Proofs.Proof.Statement
import SecretBallot.Proofs.Proof.Membership
import SecretBallot.Proofs.Proof.Sum
import SecretBallot.Proofs.Ballot.Complete
import SecretBallot.Proofs.Tally.Commit
import SecretBallot.Proofs.PartialDecryption
import SecretBallot.Proofs.Tally.Shares
import SecretBallot.Proofs.Tally.Threshold
import SecretBallot.Proofs.Tally.AnyShares
import SecretBallot.Proofs.Proof.Soundness
import SecretBallot.Proofs.Proof.ZeroKnowledge
import SecretBallot.Proofs.Ballot.Encryption
import SecretBallot.Proofs.Tally.Answer
import SecretBallot.Proofs.Tally.Closing
import SecretBallot.Proofs.Tally.Life
import SecretBallot.Proofs.Transcript
import SecretBallot.Proofs.Proof.Question
import SecretBallot.Proofs.Proof.Binding
import SecretBallot.Proofs.Wire.Format
import SecretBallot.Proofs.Wire.Grammar
import SecretBallot.Proofs.Wire.Truncation
import SecretBallot.Proofs.Tally.Lines
import SecretBallot.Proofs.Answered
import SecretBallot.Proofs.Supply
import SecretBallot.Proofs.Safety
import SecretBallot.Proofs.Calls
import SecretBallot.Proofs.KeyFile.Frame
import SecretBallot.Proofs.KeyFile.Storage
import SecretBallot.Proofs.KeyFile.Directory
import SecretBallot.Proofs.Consumption
import SecretBallot.Proofs.Ballot.Reseal
import SecretBallot.Proofs.Ballot.Witness
import SecretBallot.Proofs.Combination
import SecretBallot.Proofs.Unmasking
import SecretBallot.Proofs.Proof.Sequence
import SecretBallot.Proofs.Sharing.Coefficients
import SecretBallot.Proofs.Sharing.Verification
import SecretBallot.Proofs.Sharing.Secrecy
import SecretBallot.Proofs.Ceremony.Deliveries
import SecretBallot.Proofs.Uniformity
import SecretBallot.Proofs.Group.Laws
import SecretBallot.Proofs.Sharing.Interpolation
