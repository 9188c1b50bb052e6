import RhythmChart.Main
import RhythmChart.Proofs.Completeness
import RhythmChart.Proofs.Finishing
import RhythmChart.Proofs.Replays
import RhythmChart.Proofs.Flow.Passes
import RhythmChart.Proofs.Flow.Iteration
import RhythmChart.Proofs.Flow.Enclosure
import RhythmChart.Proofs.Flow.Skips
import RhythmChart.Proofs.Flow.Inert
import RhythmChart.Proofs.Keying
import RhythmChart.Proofs.TickRate
import RhythmChart.Proofs.Whereabouts
import RhythmChart.Proofs.FirstPass
import RhythmChart.Proofs.Binary64.Identity
import RhythmChart.Proofs.Aiming
import RhythmChart.Proofs.Performance
import RhythmChart.Proofs.Transitions
import RhythmChart.Proofs.Manuscript
import RhythmChart.Proofs.Flow.Repetition
import RhythmChart.Proofs.HoldVerdict
import RhythmChart.Proofs.Counters
import RhythmChart.Proofs.Cooldown
import RhythmChart.Proofs.Blocks
import RhythmChart.Proofs.Layers
import RhythmChart.Proofs.Symbols
import RhythmChart.Proofs.Configuration
