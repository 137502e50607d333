import Pilota.Bytes
import Pilota.Wire
import Pilota.Encoding
import Pilota.Memory
import Pilota.Length
import Pilota.Writer
import Pilota.BytesMutWriter
import Pilota.LinkedBytesWriter
import Pilota.Reader
import Pilota.Simulation
import Pilota.Decoding
import Pilota.Decoder
import Pilota.AsyncDecoder
import Pilota.Framing
import Pilota.Acceptance
import Pilota.RoundTrip
