import Wordy.Machine
import Wordy.Main
import Wordy.Proofs.Concatenation
import Wordy.Proofs.Incomplete
import Wordy.Proofs.Sessions
import Wordy.Proofs.Cuts
import Wordy.Proofs.CutForms
import Wordy.Proofs.LineBreaks
import Wordy.Proofs.Scripts
import Wordy.Proofs.Spacing
import Wordy.Proofs.Diagnostics
import Wordy.Proofs.Progress
import Wordy.Proofs.ByteScan
import Wordy.Proofs.LoopBounds
import Wordy.Proofs.Identifiers
import Wordy.Proofs.Alternatives
import Wordy.Proofs.WordPrefixes
import Wordy.Proofs.ReservedWords
import Wordy.Proofs.Numerals
import Wordy.Proofs.Descent
import Wordy.Proofs.Resumption
import Wordy.Proofs.LineTables
import Wordy.Proofs.ProgramDumps
import Wordy.Proofs.Writers
import Wordy.Proofs.Candidates
import Wordy.Proofs.BatchRuns
