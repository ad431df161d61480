import OpenSSL.Asn1.DerTree
import OpenSSL.Asn1.DsaSig
import OpenSSL.Asn1.HeaderBounds
import OpenSSL.Asn1.ObjectGrammar
import OpenSSL.Bio.BssBioRuns
import OpenSSL.Bn.BinLaws
import OpenSSL.Bn.ConvPrint
import OpenSSL.Bn.DivWords
import OpenSSL.Bn.MillerRabin
import OpenSSL.Bn.ModInverseLaws
import OpenSSL.Bn.ModSqrtLaws
import OpenSSL.Bn.Recp
import OpenSSL.Ciphers.CipherBlockRuns
import OpenSSL.HashtableRuns
import OpenSSL.LhashRuns
import OpenSSL.MemSecRuns
import OpenSSL.MlDsa.EncodersRuns
import OpenSSL.MlDsa.KeyCompress
import OpenSSL.Modes.Wrap128
import OpenSSL.PqueueRuns
import OpenSSL.PunycodeRfc
import OpenSSL.Quic.AckmAcked
import OpenSSL.Quic.AckmCc
import OpenSSL.Quic.AckmTimer
import OpenSSL.Quic.CcRuns
import OpenSSL.Quic.CfqRuns
import OpenSSL.Quic.FcRuns
import OpenSSL.Quic.FifdRuns
import OpenSSL.Quic.LcidmRuns
import OpenSSL.Quic.PktHdrPn
import OpenSSL.Quic.RStreamCredit
import OpenSSL.Quic.RcidmRuns
import OpenSSL.Quic.RecordKeys
import OpenSSL.Quic.SrtmRuns
import OpenSSL.Quic.StreamMapRuns
import OpenSSL.Quic.StreamTransfer
import OpenSSL.Quic.TxpFit
import OpenSSL.Quic.UintSetRuns
import OpenSSL.Quic.WireAck
import OpenSSL.Quic.WirePktRoundTrip
import OpenSSL.SafeMath
import OpenSSL.SparseArray
import OpenSSL.Ssl.DtlsBitmap
import OpenSSL.Ssl.EarlyData
import OpenSSL.Ssl.Ssl3CbcLaws
import OpenSSL.Ssl.StatemDtlsRuns
import OpenSSL.Ssl.Tls13RoundTrip
import OpenSSL.Ssl.TlsReadRuns
import OpenSSL.StackRuns
import OpenSSL.WpacketRuns
import OpenSSL.X509.AddrRefused
import OpenSSL.X509.AsidCanonize
import OpenSSL.X509.IpAscText
import OpenSSL.X509.NcMatch
import OpenSSL.X509.ResourcePath
import OpenSSL.X509.SanOrder
import OpenSSL.X509.Wildcard
import OpenSSL.Bn.Wnaf
