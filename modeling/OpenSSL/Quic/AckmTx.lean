import OpenSSL.Quic.AckmRuns

/- The books over whole runs: every packet that was accepted for sending is on
   record or has had exactly one callback, and the counters are the sums over the
   packets on record. -/
namespace Ossl
open List Ledger Runs

section
variable {δ : Type*}

structure SentOk (s : TracedAckm δ) : Prop where
  books : BooksOk s.ackm.books s.accepted 0
  numbered : s.accepted.map TxPkt.ref = List.range s.accepted.length

theorem freshAckm_sent (statm : Statm) (ccData : δ) (isServer : Bool) :
    SentOk (freshAckm statm ccData isServer) := by
  have none : held (freshAckm statm ccData isServer).ackm.books.onRecord = 0 :=
    Finset.sum_eq_zero (fun _ _ => rfl)
  refine ⟨⟨txPktHistoryInit_ok, ?_, ?_, fun space => ?_⟩, rfl⟩
  · rw [none]
    exact balanced_empty
  · rw [none]
    rfl
  · rw [none]
    rfl

variable {s : TracedAckm δ}

theorem sent_of_same {t : TracedAckm δ} (ok : SentOk s)
    (books : BooksOk t.ackm.books s.accepted 0) (accepted : t.accepted = s.accepted) : SentOk t :=
  ⟨accepted.symm ▸ books, accepted.symm ▸ ok.numbered⟩

variable (cc : CcMethod δ)

theorem txPacket_sent (ok : SentOk s) (now : OsslTime) (pkt : TxPkt) :
    SentOk (applyAckmCall cc s (.txPacket now pkt)) := by
  rcases ackmOnTxPacket_books cc now ok.books (s.number pkt) with
    ⟨refused, same⟩ | ⟨accepted, h, books, longer, here⟩
  · refine sent_of_same ok (same.symm ▸ ok.books) ?_
    simp only [applyAckmCall, refused, Bool.false_eq_true, if_false]
  · have entered := enter_ok ok.books longer here
    have list : (applyAckmCall cc s (.txPacket now pkt)).accepted = s.accepted ++ [s.number pkt] := by
      simp only [applyAckmCall, accepted, if_true]
    refine ⟨?_, ?_⟩
    · rw [list, ← Multiset.coe_add]
      exact books.symm ▸ entered
    · rw [list, map_append, ok.numbered, length_append]
      exact range_succ.symm

theorem applyAckmCall_sent (s : TracedAckm δ) (call : AckmCall) (ok : SentOk s)
    (_valid : AckmCallOk s call) : SentOk (applyAckmCall cc s call) := by
  cases call with
  | txPacket now pkt => exact txPacket_sent cc ok now pkt
  | rxAckFrame clock ack space =>
    exact sent_of_same ok (ackmOnRxAckFrame_books cc clock ok.books ack space) rfl
  | timeout clock => exact sent_of_same ok (ackmOnTimeout_books cc clock ok.books) rfl
  | pseudoLost now space pn =>
    exact sent_of_same ok (ackmMarkPacketPseudoLost_books cc now ok.books space pn) rfl
  | spaceDiscarded now space =>
    refine sent_of_same ok ?_ rfl
    by_cases live : (s.ackm.spaces space).discarded = false
    · exact (ackmOnPktSpaceDiscarded_books cc now live).symm ▸ close_ok ok.books space
    · simp only [applyAckmCall, ackmOnPktSpaceDiscarded, Bool.not_eq_false _ ▸ live, if_true]
      exact ok.books
  | handshakeConfirmed now => exact sent_of_same ok ok.books rfl
  | rxPacket mem pkt =>
    exact sent_of_same ok ((ackmOnRxPacket_books mem s.ackm pkt).symm ▸ ok.books) rfl
  | getAckFrame now space =>
    exact sent_of_same ok ((ackmGetAckFrame_unnoticed now s.ackm space).books.symm ▸ ok.books) rfl
  | setRxMaxAckDelay delay => exact sent_of_same ok ok.books rfl
  | setTxMaxAckDelay delay => exact sent_of_same ok ok.books rfl

def TracedAckm.onRecord (s : TracedAckm δ) (space : PnSpace) : List TxPkt :=
  (s.ackm.spaces space).txHistory.packets

end

def sentCall (pn bytes : Nat) : AckmCall :=
  .txPacket 2000 ⟨0, pn, bytes, 2000, quicPnInvalid, .initial, true, true⟩

end Ossl
