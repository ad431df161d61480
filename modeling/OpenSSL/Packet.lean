import OpenSSL.Lib.Codec
import OpenSSL.Quic.Vlint

/- The packet readers of include/internal/packet.h and packet_quic.h. A packet is
   the list of its remaining bytes, and a call that returns 0 is a failed reader. -/
namespace Ossl
open BigEndian Codec List

abbrev Packet := List UInt8
abbrev PacketM := StateT Packet Option

def packetData : PacketM (List UInt8) := get

def packetRemaining : PacketM Nat := fun pkt => some (pkt.length, pkt)

def packetForward (len : Nat) : PacketM Unit := fun pkt =>
  if pkt.length < len then none else some ((), pkt.drop len)

def packetGetBytes (len : Nat) : PacketM (List UInt8) := fun pkt =>
  if pkt.length < len then none else some (pkt.take len, pkt.drop len)

def packetCopyBytes (len : Nat) : PacketM (List UInt8) := packetGetBytes len

def packetGet1 : PacketM Nat := fun pkt =>
  match pkt with
  | [] => none
  | b :: rest => some (b.toNat, rest)

def packetGetNet4 : PacketM Nat := fun pkt =>
  if pkt.length < 4 then none else some (netValue (pkt.take 4), pkt.drop 4)

def packetGetNet8 : PacketM Nat := fun pkt =>
  if pkt.length < 8 then none else some (netValue (pkt.take 8), pkt.drop 8)

def packetGetQuicVlint : PacketM Nat := fun pkt =>
  if pkt.length < 1 then none
  else
    let enclen := vlintDecodeLen (pkt.headD 0)
    if pkt.length < enclen then none else some (vlintDecodeUnchecked pkt, pkt.drop enclen)

def packetPeekQuicVlintEx (pkt : Packet) : Option (Nat × Bool) :=
  if pkt.length < 1 then none
  else
    let enclen := vlintDecodeLen (pkt.headD 0)
    if pkt.length < enclen then none
    else
      let data := vlintDecodeUnchecked pkt
      some (data, decide (enclen = vlintEncodeLen data))

theorem getBytes_reads {n : Nat} {bytes : List UInt8} (len : bytes.length = n)
    (rest : List UInt8) : Reads (packetGetBytes n) bytes bytes rest := by
  subst len
  unfold Reads
  simp only [packetGetBytes, StateT.run, length_append, Nat.not_lt.mpr (Nat.le_add_right _ _),
    if_false, take_left', drop_left']

theorem data_reads {α : Type} {h : List UInt8 → α} {y : α} {n : Nat} {bytes rest : List UInt8}
    (len : bytes.length = n) (value : h (bytes ++ rest) = y) :
    Reads (packetData >>= fun data => packetForward n >>= fun _ => pure (h data)) bytes y rest := by
  have run : (packetForward n).run (bytes ++ rest) = some ((), rest) := by
    simp only [packetForward, StateT.run, length_append, len,
      Nat.not_lt.mpr (Nat.le_add_right n _), if_false]
    rw [drop_left' len]
  have later : ((packetForward n >>= fun _ => pure (h (bytes ++ rest))) : PacketM α).run
      (bytes ++ rest) = some (y, rest) := by
    rw [StateT.run_bind, run, ← value]
    rfl
  exact later

variable {v : Nat}

theorem get1_reads (fits : v < 2 ^ 8) (rest : List UInt8) :
    Reads packetGet1 (netBytes 1 v) v rest := by
  have byte : (UInt8.ofNat v).toNat = v := by rw [UInt8.toNat_ofNat', Nat.mod_eq_of_lt fits]
  have run : packetGet1.run (netBytes 1 v ++ rest) = some ((UInt8.ofNat v).toNat, rest) := rfl
  rwa [byte] at run

theorem remaining_reads (rest : List UInt8) : Reads packetRemaining [] rest.length rest := rfl

theorem getNet4_reads (fits : v < 2 ^ 32) (rest : List UInt8) :
    Reads packetGetNet4 (netBytes 4 v) v rest := by
  unfold Reads
  have len : (netBytes 4 v).length = 4 := netBytes_length 4 v
  simp only [packetGetNet4, StateT.run, length_append, len,
    Nat.not_lt.mpr (Nat.le_add_right 4 _), if_false]
  rw [take_left' len, drop_left' len, netValue_netBytes, Nat.mod_eq_of_lt fits]

theorem getNet8_reads (fits : v < 2 ^ 64) (rest : List UInt8) :
    Reads packetGetNet8 (netBytes 8 v) v rest := by
  unfold Reads
  have len : (netBytes 8 v).length = 8 := netBytes_length 8 v
  simp only [packetGetNet8, StateT.run, length_append, len,
    Nat.not_lt.mpr (Nat.le_add_right 8 _), if_false]
  rw [take_left' len, drop_left' len, netValue_netBytes, Nat.mod_eq_of_lt fits]

theorem vlint_long (fits : v ≤ vlintMax) (rest : List UInt8) :
    ¬ (vlintEncode v ++ rest).length < 1 ∧ ¬ (vlintEncode v ++ rest).length < vlintEncodeLen v := by
  have len := (vlint_decodes fits rest).1
  have positive := vlintEncodeLen_pos.mpr fits
  rw [length_append]
  omega

theorem getQuicVlint_reads (fits : v ≤ vlintMax) (rest : List UInt8) :
    Reads packetGetQuicVlint (vlintEncode v) v rest := by
  obtain ⟨len, size, value⟩ := vlint_decodes fits rest
  obtain ⟨some, whole⟩ := vlint_long fits rest
  unfold Reads
  simp only [packetGetQuicVlint, StateT.run, some, size, whole, value, if_false]
  rw [drop_left' len]

theorem peekQuicVlint_encoded (fits : v ≤ vlintMax) (rest : List UInt8) :
    packetPeekQuicVlintEx (vlintEncode v ++ rest) = some (v, true) := by
  obtain ⟨_, size, value⟩ := vlint_decodes fits rest
  obtain ⟨some, whole⟩ := vlint_long fits rest
  simp only [packetPeekQuicVlintEx, some, size, whole, value, if_false, decide_true]

end Ossl
