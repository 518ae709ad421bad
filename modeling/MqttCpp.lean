import MqttCpp.Library.PrefixTree
import MqttCpp.Library.Framing
import MqttCpp.Library.Machine
import MqttCpp.Library.Wildcard
import MqttCpp.Memory
import MqttCpp.Cereal.Cereal
import MqttCpp.Cereal.Cerealiser
import MqttCpp.Cereal.Decerealiser
import MqttCpp.Message.Message
import MqttCpp.Broker.Broker
import MqttCpp.Broker.Walk
import MqttCpp.Broker.FlatSpec
import MqttCpp.Broker.Cache
import MqttCpp.Stream.Stream
import MqttCpp.Stream.Framing
import MqttCpp.Library.Codec
import MqttCpp.Cereal.Codec
import MqttCpp.Message.Header
import MqttCpp.Stream.HeaderLength
import MqttCpp.Message.Publish
import MqttCpp.Message.PublishTopic
import MqttCpp.Server.Server
import MqttCpp.Server.Decoding
import MqttCpp.Broker.Recorded
import MqttCpp.Server.Requests
import MqttCpp.Server.Connection
import MqttCpp.Server.Steps
import MqttCpp.Server.Lifetime
import MqttCpp.Server.ClientMessage
import MqttCpp.Server.AbstractBroker
import MqttCpp.Server.EndToEnd
import MqttCpp.Message.RemainingLength
import MqttCpp.Stream.LengthDigits
import MqttCpp.Message.PublishLength
import MqttCpp.Message.Connect
import MqttCpp.Message.Inverse
import MqttCpp.Broker.Noninterference
import MqttCpp.Broker.Deliveries
import MqttCpp.Server.Unsubscribe
import MqttCpp.Server.Disconnect
import MqttCpp.Library.PendingWrites
import MqttCpp.Server.Network
import MqttCpp.Server.Writes
import MqttCpp.Server.Answers
import MqttCpp.Cereal.BitReader
import MqttCpp.Cereal.BitWriter
import MqttCpp.Message.Lengths
import MqttCpp.Server.Acknowledgements
import MqttCpp.Stream.Residue
import MqttCpp.Server.Malformed
import MqttCpp.Server.Released
import MqttCpp.Message.Unchanged
import MqttCpp.Broker.Repeated
import MqttCpp.Server.Sessions
import MqttCpp.Server.Recut
import MqttCpp.Server.Closed
import MqttCpp.Server.ExactBroker
import MqttCpp.Server.Trace
import MqttCpp.Broker.CacheContents
import MqttCpp.Broker.TreeShape
import MqttCpp.Cereal.Numbers
import MqttCpp.Cereal.Shape
import MqttCpp.Server.Wire
import MqttCpp.Server.Cached
import MqttCpp.Server.Schedule
