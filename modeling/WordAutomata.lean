import WordAutomata.Main
import WordAutomata.Lookup
import WordAutomata.Proofs.Minimal
import WordAutomata.Proofs.Reached
import WordAutomata.Proofs.Passes
import WordAutomata.Proofs.UniformWriter
import WordAutomata.Proofs.CompactWriter
import WordAutomata.Proofs.Tally
import WordAutomata.Proofs.Rank
import WordAutomata.Proofs.Copies
import WordAutomata.Proofs.Settling
import WordAutomata.Proofs.Unwritten
import WordAutomata.Proofs.Appended
import WordAutomata.Proofs.Root
import WordAutomata.Proofs.Saturation
import WordAutomata.Proofs.Calls
import WordAutomata.Proofs.Cut
import WordAutomata.Proofs.Dump
import WordAutomata.Proofs.Beginnings
import WordAutomata.Proofs.Matching
import WordAutomata.Proofs.Width
import WordAutomata.Proofs.Tuning
import WordAutomata.Proofs.Visits
import WordAutomata.Proofs.Spelling
import WordAutomata.Proofs.Census
import WordAutomata.Proofs.Separators
import WordAutomata.Proofs.Codes
import WordAutomata.Proofs.Recompile
import WordAutomata.Proofs.Drawing
import WordAutomata.Proofs.DrawingWriter
import WordAutomata.Proofs.Unchecked
import WordAutomata.Proofs.Complete
import WordAutomata.Proofs.Frequency
import WordAutomata.Proofs.Shrinking
import WordAutomata.Proofs.Cutoff
import WordAutomata.Proofs.Overrun
