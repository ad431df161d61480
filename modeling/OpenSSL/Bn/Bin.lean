import OpenSSL.Bn.Bignum
import OpenSSL.Lib.LittleEndian

/- Big numbers to and from bytes. -/
namespace Ossl

inductive Endianness where
  | big
  | little
  deriving DecidableEq

end Ossl
