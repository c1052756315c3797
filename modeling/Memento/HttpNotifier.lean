import Memento.Lib.Json
import Memento.MementoPlugin

/-! `httpnotifier.cpp`: the connection to the server that is told of changed call lists, and what it is sent. -/

namespace Memento
open Text

/-- What `Utils::parse_http_url` makes of a URL that it can parse. -/
structure HttpUrl where
  scheme : Bytes
  server : Bytes
  path : Bytes

structure HttpConnection where
  server : Bytes
  scheme : Bytes
  deriving DecidableEq

structure HttpNotifier where
  httpConnection : Option HttpConnection
  httpUrlPath : Bytes

/-- A POST. -/
structure HttpRequest where
  connection : HttpConnection
  path : Bytes
  body : Bytes
  deriving DecidableEq

/-- The constructor: without a server in the URL there is no connection. -/
def HttpNotifier.new (parseHttpUrl : Bytes → Option HttpUrl) (notifyUrl : Bytes) : HttpNotifier :=
  match parseHttpUrl notifyUrl with
  | some url => if url.server ≠ [] then ⟨some ⟨url.server, url.scheme⟩, url.path⟩ else ⟨none, []⟩
  | none => ⟨none, []⟩

/-- `HTTP_OK`. -/
def httpOk : ℤ := 200

/-- The document as the writer prints it into its buffer, read as a C string. The IMPU is one as well. -/
def notification (writer : Json.Writer) (impu : Bytes) : Bytes := cStr (writer.object [(ascii "impu", cStr impu)])

/-- `send_notify`, where the request is answered with a code: the request, if one is sent, and the result. -/
def HttpNotifier.sendNotify (n : HttpNotifier) (writer : Json.Writer) (httpCode : HttpRequest → ℤ) (impu : Bytes) :
    Option HttpRequest × Bool :=
  match n.httpConnection with
  | none => (none, true)
  | some connection =>
    let request := ⟨connection, n.httpUrlPath, notification writer impu⟩
    (some request, httpCode request = httpOk)

/-- What the constructor of `MementoAppServer` makes of the options: the pool, which always has a notifier, and the
    notifier. -/
structure MementoAppServer where
  poolConfig : PoolConfig
  httpNotifier : HttpNotifier

def MementoAppServer.new (parseHttpUrl : Bytes → Option HttpUrl) (options : MementoSproutlet) : MementoAppServer where
  poolConfig := ⟨options.maxCallListLength, options.callListTtl, true⟩
  httpNotifier := .new parseHttpUrl options.mementoNotifyUrl

end Memento
