import Kzr.StringStreamProofs
import Kzr.DraftProofs
import Kzr.WireFormatProofs
import Kzr.LittleEndianProofs
import Kzr.FramingProofs
import Kzr.RunProofs
import Kzr.SimulationProofs
import Kzr.ReportProofs
import Kzr.BlendProofs
import Kzr.OperationProofs
import Kzr.MessageStreamProofs
import Kzr.PrimitiveProofs
import Kzr.IntegerCodecProofs
import Kzr.MessageProofs
import Kzr.CodecProofs
import Kzr.MessageCodecProofs
import Kzr.InteractionProofs
import Kzr.InteractionCodecProofs
import Kzr.FieldProofs
import Kzr.RoundTripProofs
import Kzr.UntrustedInputProofs
import Kzr.NinePProofs
import Kzr.QueueProofs
import Kzr.CompletionProofs
import Kzr.PeekProofs
import Kzr.EncodableProofs
import Kzr.OverwriteProofs
import Kzr.ReuseProofs
import Kzr.StatSizeProofs
import Kzr.VerdictProofs
import Kzr.AcceptanceProofs
import Kzr.StandardProofs
import Kzr.RefusalProofs
import Kzr.ForwardProofs
import Kzr.PipeProofs
import Kzr.RelayProofs
import Kzr.ReplyProofs
import Kzr.ConnectionProofs
import Kzr.FileHandleConnectionProofs
import Kzr.SenderProofs
import Kzr.LedgerProofs
import Kzr.PostingProofs
import Kzr.OwnershipProofs
import Kzr.LeakProofs
import Kzr.SocketConnectionProofs
import Kzr.UnixDomainSocketConnectionProofs
import Kzr.SocketLifeProofs
import Kzr.CoreProofs
import Kzr.PackedProofs
