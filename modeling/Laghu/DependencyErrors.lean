import Laghu.Contract

/-!
Errors of external libraries. An adapter reports which dependency failed at which
operation and how; the text of the error is built from these names alone.
-/

namespace Laghu.DependencyErrors

open Contract

/-- `unknown` is a value of the underlying integer that is no enumerator. -/
inductive DependencyId
  | none | openssl | libressl | yyjson | nghttp2 | ngtcp2 | nghttp3 | cAres | pcre28bit | zlibNg
  | brotli | zstd | libmaxminddb | libidn2 | libxcrypt | protobufC
  | unknown (value : BitVec 8)
  deriving DecidableEq

def isKnownDependencyId : DependencyId → Bool
  | .unknown _ => false
  | _ => true

def dependencyName : DependencyId → String
  | .none => "none"
  | .openssl => "openssl"
  | .libressl => "libressl"
  | .yyjson => "yyjson"
  | .nghttp2 => "nghttp2"
  | .ngtcp2 => "ngtcp2"
  | .nghttp3 => "nghttp3"
  | .cAres => "c_ares"
  | .pcre28bit => "pcre2_8bit"
  | .zlibNg => "zlib_ng"
  | .brotli => "brotli"
  | .zstd => "zstd"
  | .libmaxminddb => "libmaxminddb"
  | .libidn2 => "libidn2"
  | .libxcrypt => "libxcrypt"
  | .protobufC => "protobuf_c"
  | .unknown _ => "none"

/-- The operations of the adapters that are modelled. -/
inductive DependencyOperation
  | quicSession | quicReceive | quicSend | quicStream | quicExpiry
  | dnsSession | dnsQuery | codecInitialize | codecProcess | jsonParse
  | http2Submit | http3Submit
  deriving DecidableEq

def operationName : DependencyOperation → String
  | .quicSession => "quic_session"
  | .quicReceive => "quic_receive"
  | .quicSend => "quic_send"
  | .quicStream => "quic_stream"
  | .quicExpiry => "quic_expiry"
  | .dnsSession => "dns_session"
  | .dnsQuery => "dns_query"
  | .codecInitialize => "codec_initialize"
  | .codecProcess => "codec_process"
  | .jsonParse => "json_parse"
  | .http2Submit => "http2_submit"
  | .http3Submit => "http3_submit"

inductive DependencyStatus
  | invalidInput | invalidRange | unavailable | exhaustion | unsupportedVersion | corruptData
  | checksum | crypto | io | unknown
  deriving DecidableEq

def statusName : DependencyStatus → String
  | .invalidInput => "invalid_input"
  | .invalidRange => "invalid_range"
  | .unavailable => "unavailable"
  | .exhaustion => "exhaustion"
  | .unsupportedVersion => "unsupported_version"
  | .corruptData => "corrupt_data"
  | .checksum => "checksum"
  | .crypto => "crypto"
  | .io => "io"
  | .unknown => "unknown"

def normalizeDependency : DependencyStatus → ErrorCode
  | .invalidInput => .invalidInput
  | .invalidRange => .invalidRange
  | .unavailable => .unavailableCapability
  | .exhaustion => .exhaustion
  | .unsupportedVersion => .unsupportedVersion
  | .corruptData => .corruptData
  | .checksum => .checksum
  | .crypto => .crypto
  | .io => .io
  | .unknown => .dependency

def normalizeDependencyError (dependency : DependencyId) (operation : DependencyOperation)
    (status : DependencyStatus) (nativeCode : Int) : Error where
  domain := .dependency
  code := normalizeDependency status
  nativeCode := nativeCode
  diagnostic := "dependency=" ++ dependencyName dependency ++ " operation=" ++
    operationName operation ++ " status=" ++ statusName status

end Laghu.DependencyErrors
