import GooglePerl.Protobuf.VarintMeaning
import GooglePerl.Protobuf.ParsePositions
import GooglePerl.Protobuf.WireMismatch
import GooglePerl.Protobuf.Packed
import GooglePerl.Protobuf.Concat
import GooglePerl.Protobuf.Forward
import GooglePerl.Protobuf.Reference
import GooglePerl.Protobuf.Oneof
import GooglePerl.Protobuf.Reserialize
import GooglePerl.Protobuf.Copy
import GooglePerl.Protobuf.MergeAliasing
import GooglePerl.Protobuf.MergeAlgebra
import GooglePerl.Protobuf.Observe
import GooglePerl.Protobuf.Checked
import GooglePerl.Xs.Accessors
import GooglePerl.Xs.AuditLog
import GooglePerl.Xs.Wrappers
import GooglePerl.Xs.Restore
import GooglePerl.RepeatedFields
import GooglePerl.RefusedElements
import GooglePerl.Grpc.Reassembly
import GooglePerl.Grpc.Lifecycle
import GooglePerl.Grpc.LostFrames
import GooglePerl.Grpc.PoolAccounting
import GooglePerl.Grpc.Dispatch
import GooglePerl.Grpc.Trailers
import GooglePerl.Grpc.Client
import GooglePerl.Grpc.StatusDetails
import GooglePerl.Auth.ValidTokens
import GooglePerl.Auth.TokenSyntax
import GooglePerl.Auth.AggregateKeys
import GooglePerl.Auth.HttpKeys
import GooglePerl.Auth.JwkSets
import GooglePerl.Auth.RetryHelper
import GooglePerl.Auth.Credentials
import GooglePerl.Auth.ServiceAccount
import GooglePerl.Protobuf.DescriptorEncoding
import GooglePerl.Protobuf.ImportStubs
import GooglePerl.Protobuf.DescriptorPool
import GooglePerl.Protobuf.PoolRefusal
import GooglePerl.Protobuf.Declarations
import GooglePerl.Protobuf.PoolGrowth
import GooglePerl.Protobuf.LoadOrder
import GooglePerl.Protobuf.ClassNames
import GooglePerl.Protobuf.GeneratedClasses
import GooglePerl.Protobuf.WireFields
import GooglePerl.UnknownFieldSet
import GooglePerl.Starter.Coverage
import GooglePerl.Xs.StatsAlloc
import GooglePerl.Xs.GuardPages
import GooglePerl.Xs.LinearBlocks
import GooglePerl.Xs.Handles
import GooglePerl.Xs.WideIntegers
import GooglePerl.Xs.NameConversion
import GooglePerl.Wkt.RoundTrip
import GooglePerl.Protobuf.Rebuild
import GooglePerl.Protobuf.Required
import GooglePerl.Protoc.Generator
import GooglePerl.Grpc.RequestBody
import GooglePerl.Dbd.Dsn
import GooglePerl.Lib.FormUrl
import GooglePerl.Rest.RequestUrl
import GooglePerl.Lib.JsonText
import GooglePerl.Protobuf.CompactJson
import GooglePerl.Xs.MapKeys
import GooglePerl.Xs.MapCopy
import GooglePerl.Protobuf.Dynamic
import GooglePerl.Starter.WrapperClasses
import GooglePerl.Grpc.Delivery
import GooglePerl.Xs.MapHash
import GooglePerl.Wkt.Any
import GooglePerl.Lib.Unambiguous
import GooglePerl.Protobuf.TextFormat
import GooglePerl.Protobuf.TextDistinct
import GooglePerl.Protobuf.Frozen
import GooglePerl.UnknownFieldRuns
import GooglePerl.Xs.ArenaBound
import GooglePerl.Lib.Calendar
import GooglePerl.Lib.Iso8601
import GooglePerl.Wkt.Timestamp
import GooglePerl.Auth.TokenLifetime
import GooglePerl.Protobuf.LoadedSchema
import GooglePerl.Protobuf.Conformance
import GooglePerl.Grpc.UnaryCall
import GooglePerl.FieldAccess
