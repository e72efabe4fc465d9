import RubyOAuth.Lib.Dispatch
import RubyOAuth.Model.Signature

set_option autoImplicit false

/-! # `available_proxies`

The table that proxy classes enter themselves in when their files are loaded. Which class a request gets
is looked up by the request's class, and else by the first entry that it is an instance of. Any `isA`
stands for the classes of the program: `isA k a` where instances of `k` are instances of `a`. -/

namespace RubyOAuth

open Bytes

/-- The subclasses of `RequestProxy::Base`. -/
inductive ProxyClass where
  | httpRequest
  | rackRequest
  | mockRequest
  | actionDispatchRequest
  | actionControllerRequest
  | restClientRequest
  | curlEasy
  | jabberRequest
  | typhoeusRequest
  | emHttpRequest
  deriving DecidableEq, Repr

/-- What the class body `proxies`. -/
def ProxyClass.proxied : ProxyClass → List Bytes
  | .httpRequest => [ascii "Net::HTTPGenericRequest"]
  | .rackRequest => [ascii "Rack::Request"]
  | .mockRequest => [ascii "Hash"]
  | .actionDispatchRequest => [ascii "ActionDispatch::Request"]
  | .actionControllerRequest => [ascii "ActionDispatch::Request"]
  | .restClientRequest => [ascii "RestClient::Request"]
  | .curlEasy => [ascii "Curl::Easy"]
  | .jabberRequest => [ascii "Jabber::Iq", ascii "Jabber::Presence", ascii "Jabber::Message"]
  | .typhoeusRequest => [ascii "Typhoeus::Request"]
  | .emHttpRequest => [ascii "EventMachine::HttpClient"]

/-- The `proxies` lines that have run when the class bodies have, one after the other. -/
def proxiesLines (loaded : List ProxyClass) : List (Bytes × ProxyClass) :=
  loaded.flatMap (fun p => p.proxied.map (fun k => (k, p)))

/-- `available_proxies` then. -/
def availableProxies (loaded : List ProxyClass) : OrderedHash Bytes ProxyClass :=
  OrderedHash.ofList (proxiesLines loaded)

structure UnknownRequestType where
  className : Bytes
  deriving DecidableEq, Repr

/-- The class `proxy` makes an instance of, for a request that is no proxy itself. -/
def proxyClass (isA : Bytes → Bytes → Bool) (available : OrderedHash Bytes ProxyClass)
    (requestClass : Bytes) : Except UnknownRequestType ProxyClass :=
  match Dispatch.dispatch isA available requestClass with
  | some klass => .ok klass
  | none => .error ⟨requestClass⟩

end RubyOAuth
