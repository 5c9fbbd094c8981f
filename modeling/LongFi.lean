import LongFi.Core.SelfDualCode
import LongFi.Datagram.Message
import LongFi.Golay.Popcount
import LongFi.Golay.Decode
import LongFi.Wire.Varint
import LongFi.Datagram.Des
import LongFi.Datagram.Refinement
import LongFi.Datagram.Received
import LongFi.Device.Fingerprint
import LongFi.Device.Lfc
import LongFi.Device.Receive
import LongFi.Device.Delivery
import LongFi.Device.Assertions
import LongFi.Device.Run
import LongFi.Wire.Framing
import LongFi.Datagram.Headers
import LongFi.Datagram.Hostile
import LongFi.Datagram.Normal
import LongFi.Device.Space
import LongFi.Core.Blocks
import LongFi.Core.Registers
import LongFi.Hash.Session
import LongFi.Hash.Rounds
import LongFi.Device.Hashed
import LongFi.Device.Mixed
import LongFi.Device.Malleability
import LongFi.Golay.Coverage
import LongFi.Wire.Sessions
