import FFoveated.Facade
import FFoveated.Stage
import FFoveated.Queue
import FFoveated.RingQueue
import FFoveated.System
import FFoveated.Decoder
import FFoveated.Encoder
import FFoveated.Reader
import FFoveated.Pipeline
import FFoveated.Progress
import FFoveated.Lag
import FFoveated.Latency
import FFoveated.FormatCtx
import FFoveated.Composition
import FFoveated.Determinacy
import FFoveated.ReadError
