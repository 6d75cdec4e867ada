import CppCode.MultiThread.Delivery
import CppCode.MultiThread.Deadlock
import CppCode.MultiThread.Stream
import CppCode.Mongoose.Bodies
import CppCode.Interfaces.Responses
import CppCode.Interfaces.Options
import CppCode.HttpServer.Stop
import CppCode.HttpClient.Waiting
import CppCode.HttpClient.RoundTrip
import CppCode.MultiThread.UniqueIds
import CppCode.MultiThread.Shutdown
import CppCode.MultiThread.Order
import CppCode.Interfaces.Listeners
import CppCode.HttpClient.Replies
import CppCode.HttpClient.Response
import CppCode.Json.Written
import CppCode.Json.Build
import CppCode.Interfaces.FailedBind
import CppCode.MultiThread.Platforms
import CppCode.MultiThread.Seen
import CppCode.HttpServer.HeaderLoop
import CppCode.Json.Malformed
import CppCode.TinyXml.Traversal
import CppCode.Mongoose.WebSocketClosing
import CppCode.Mongoose.WebSocketLoop
import CppCode.Mongoose.Sha1Digest
import CppCode.Mongoose.WebSocketSession
import CppCode.Mongoose.FormData
import CppCode.Mongoose.MatchPrefix
import CppCode.Mongoose.NormalizePath
import CppCode.Mongoose.LocalPath
import CppCode.Mongoose.DocumentRoot
import CppCode.Mongoose.AccessList
import CppCode.Mongoose.Endpoints
