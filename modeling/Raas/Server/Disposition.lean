import Raas.Os.Path

namespace Raas.Server

/-! The `Content-Disposition` header. A `str` is its UTF-8 bytes here. -/

def ascii (text : String) : Bytes := text.toList.map fun char => UInt8.ofNat char.toNat

def hexDigit (value : Nat) : UInt8 := UInt8.ofNat (if value < 10 then 48 + value else 55 + value)

def isUnreserved (byte : UInt8) : Bool :=
  (48 ≤ byte && byte ≤ 57) || (65 ≤ byte && byte ≤ 90) || (97 ≤ byte && byte ≤ 122) ||
    byte == 45 || byte == 46 || byte == 95 || byte == 126

def percentEncodeUtf8 (value : Bytes) : Bytes :=
  value.flatMap fun byte =>
    if isUnreserved byte then [byte]
    else [37, hexDigit (byte.toNat / 16), hexDigit (byte.toNat % 16)]

/-- `is_ascii` and none of `"`, `\`, CR and LF. -/
def isAsciiSafe (fileName : Bytes) : Bool :=
  fileName.all fun byte => byte < 128 && byte != 34 && byte != 92 && byte != 13 && byte != 10

def buildContentDisposition (fileName : Bytes) : Bytes :=
  let encoded := percentEncodeUtf8 fileName
  if isAsciiSafe fileName then
    ascii "attachment; filename=\"" ++ fileName ++ ascii "\"; filename*=UTF-8''" ++ encoded
  else ascii "attachment; filename*=UTF-8''" ++ encoded

end Raas.Server
