import FastJsonSchema.Formats.Ipv6Address
import FastJsonSchema.Formats.Uri

/-!
# The grammar of URI references

The rules of RFC 3986, section 3 and section 4, with the non-ASCII UTF-8 sequences that
`allow_utf8` adds wherever an `unreserved` character may stand. The rules from `authority` on take
the language of the hosts as a parameter, `host` being that of the RFC.
-/

namespace FastJsonSchema.Formats

open Ruby Scan Words

open scoped Computability

namespace Rfc3986

/-- `unreserved` -/
def unreserved (u : Bool) : Language UInt8 := alpha + digit + oneOf "-._~" + utf8NonAscii u

/-- `sub-delims` -/
def subDelims : Language UInt8 := oneOf "!$&'()*+,;="

/-- `pct-encoded` -/
def pctEncoded : Language UInt8 := char '%' * (hexdig * hexdig)

/-- `pchar` -/
def pchar (u : Bool) : Language UInt8 :=
  unreserved u + pctEncoded + subDelims + char ':' + char '@'

/-- `segment` -/
def segment (u : Bool) : Language UInt8 := (pchar u)∗

/-- `segment-nz` -/
def segmentNz (u : Bool) : Language UInt8 := many1 (pchar u)

/-- `segment-nz-nc` -/
def segmentNzNc (u : Bool) : Language UInt8 :=
  many1 (unreserved u + pctEncoded + subDelims + char '@')

/-- `path-abempty` -/
def pathAbempty (u : Bool) : Language UInt8 := (char '/' * segment u)∗

/-- `path-absolute` -/
def pathAbsolute (u : Bool) : Language UInt8 :=
  char '/' * optional (segmentNz u * pathAbempty u)

/-- `path-noscheme` -/
def pathNoscheme (u : Bool) : Language UInt8 := segmentNzNc u * pathAbempty u

/-- `path-rootless` -/
def pathRootless (u : Bool) : Language UInt8 := segmentNz u * pathAbempty u

/-- `query` and `fragment` -/
def query (u : Bool) : Language UInt8 := (pchar u + char '/' + char '?')∗

/-- `scheme` -/
def scheme : Language UInt8 := alpha * (alpha + digit + oneOf "+-.")∗

/-- `userinfo` -/
def userinfo (u : Bool) : Language UInt8 := (unreserved u + pctEncoded + subDelims + char ':')∗

/-- `port` -/
def port : Language UInt8 := digit∗

/-- `IPvFuture` -/
def ipvFuture : Language UInt8 :=
  (char 'v' + char 'V') *
    (many1 hexdig * (char '.' * many1 (unreserved false + subDelims + char ':')))

/-- `IPv6address`, as `parse_ipv6` recognises it. -/
def ipv6 : Language UInt8 := {w | parseIpv6 w = .ok true}

theorem mem_ipv6 {w : Bytes} : w ∈ ipv6 ↔ parseIpv6 w = .ok true := Iff.rfl

/-- `IP-literal` -/
def ipLiteral : Language UInt8 := char '[' * ((ipv6 + ipvFuture) * char ']')

/-- `reg-name` -/
def regName (u : Bool) : Language UInt8 := (unreserved u + pctEncoded + subDelims)∗

/-- `host` -/
def host (u : Bool) : Language UInt8 := ipLiteral + ipv4Address + regName u

section Hosts

variable (H : Language UInt8) (u : Bool)

/-- `host [ ":" port ]` -/
def hostPort : Language UInt8 := H * optional (char ':' * port)

/-- `authority` -/
def authority : Language UInt8 := optional (userinfo u * char '@') * hostPort H

/-- `"//" authority path-abempty` -/
def netPath : Language UInt8 := char '/' * (char '/' * (authority H u * pathAbempty u))

/-- `hier-part` -/
def hierPart : Language UInt8 := netPath H u + pathAbsolute u + pathRootless u + 1

/-- `relative-part` -/
def relativePart : Language UInt8 := netPath H u + pathAbsolute u + pathNoscheme u + 1

/-- `[ "?" query ] [ "#" fragment ]` -/
def queryFragment : Language UInt8 :=
  optional (char '?' * query u) * optional (char '#' * query u)

/-- `URI` -/
def uriOver : Language UInt8 := scheme * (char ':' * (hierPart H u * queryFragment u))

/-- `relative-ref` -/
def relativeRefOver : Language UInt8 := relativePart H u * queryFragment u

/-- `URI-reference` -/
def uriReferenceOver : Language UInt8 := uriOver H u + relativeRefOver H u

end Hosts

/-- `URI` -/
def uri (u : Bool) : Language UInt8 := uriOver (host u) u

/-- `URI-reference` -/
def uriReference (u : Bool) : Language UInt8 := uriReferenceOver (host u) u

end Rfc3986

end FastJsonSchema.Formats
