import AchProofs.Foundation.Text
import AchProofs.Forwarder.Url

namespace AchProofs.Forwarder

open Foundation.Percent Foundation.Search Foundation.Text

/-- The values of each header of a request, in order. Names are in lower case. `net/http` keeps the
host apart from them, so `host` has no values in a request of its own. -/
abbrev Header := Bytes → List Bytes

namespace Header

def get (h : Header) (name : Bytes) : Bytes := (h name).headD []

def del (h : Header) (name : Bytes) : Header := Function.update h name []

def set (h : Header) (name value : Bytes) : Header := Function.update h name [value]

@[simp] theorem del_self (h : Header) (name : Bytes) : h.del name name = [] :=
  Function.update_self ..

@[simp] theorem set_self (h : Header) (name value : Bytes) : h.set name value name = [value] :=
  Function.update_self ..

theorem del_ne (h : Header) {name n : Bytes} (hn : n ≠ name) : h.del name n = h n :=
  Function.update_of_ne hn ..

theorem set_ne (h : Header) {name n : Bytes} (value : Bytes) (hn : n ≠ name) :
    h.set name value n = h n :=
  Function.update_of_ne hn ..

end Header

def connectionHeader : Bytes := bytes "connection"
def authzHeader : Bytes := bytes "authorization"
def contentTypeHeader : Bytes := bytes "content-type"
def contentLengthHeader : Bytes := bytes "content-length"
def transferEncodingHeader : Bytes := bytes "transfer-encoding"
def acceptEncodingHeader : Bytes := bytes "accept-encoding"
def apiKeyHeader : Bytes := bytes "x-litellm-api-key"
def googKeyHeader : Bytes := bytes "x-goog-api-key"
def tagsHeader : Bytes := bytes "x-litellm-tags"
def headerTags : Bytes := bytes "x-achtest-tags"
def plainTagsHeader : Bytes := bytes "tags"
def upgradeHeader : Bytes := bytes "upgrade"
def teHeader : Bytes := bytes "te"

def tokens (values : List Bytes) : List Bytes :=
  values.flatMap (fun v => (v.splitOn comma).map (fun t => lowerAscii (trimSpace t)))

def hasUpgradeToken (values : List Bytes) : Bool := bytes "upgrade" ∈ tokens values

/-! What the reverse proxy does with the headers after the director. -/

def hopHeaders : List Bytes :=
  [connectionHeader, bytes "proxy-connection", bytes "keep-alive", bytes "proxy-authenticate",
    bytes "proxy-authorization", teHeader, bytes "trailer", transferEncodingHeader,
    upgradeHeader]

def removeHopByHop (h : Header) : Header := fun n =>
  if n ∈ tokens (h connectionHeader) ∨ n ∈ hopHeaders then [] else h n

def upgradeType (h : Header) : Bytes :=
  if hasUpgradeToken (h connectionHeader) then h.get upgradeHeader else []

/-- The headers on the wire, for those of the request and those the director made of them. The
length is written by the transport from the body. The address of the client that the proxy appends
for the backend is left out, and so is that the transport trims the values it writes. -/
def outgoing (original directed : Header) : Header :=
  let h := (removeHopByHop directed).del contentLengthHeader
  let h := if bytes "trailers" ∈ tokens (original teHeader) then h.set teHeader (bytes "trailers")
    else h
  if upgradeType directed ≠ [] then
    (h.set connectionHeader (bytes "Upgrade")).set upgradeHeader (upgradeType directed)
  else h

end AchProofs.Forwarder
