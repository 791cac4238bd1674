import Sonar.Core.ChunkedHit
import Sonar.Core.EncoderDecoderCache
import Sonar.Core.EventHistories
import Sonar.Core.HybridEagle
import Sonar.Core.MambaSplit
import Sonar.Core.NullHead
import Sonar.Core.Repetition
import Sonar.Core.SharedPrefix
import Sonar.Engine.TextStream
import Sonar.Multimodal.ReplicatedCache
import Sonar.Offload.ARCRuns
import Sonar.Offload.CPURuns
import Sonar.Offload.TieringProtocol
import Sonar.P2P.Pair
import Sonar.Parser.DrainedText
import Sonar.Parser.JsonObject
import Sonar.Parser.ReasoningStream
import Sonar.PhraseGuard.Journal
import Sonar.Proof.CborUnique
import Sonar.Request.PromptBlockHasher
import Sonar.Request.Session
import Sonar.SpecDecode.NgramProposer
import Sonar.Text.IncrementalText
import Sonar.Worker.BlockTable
