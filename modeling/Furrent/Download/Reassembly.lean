import Furrent.Download.Calls
import Furrent.Download.Framing

/-! # Putting a piece together

    The loop of `try_download` only counts the blocks it receives. That the
    count reaching the number of blocks means that every byte is there rests
    on how the blocks requested, in flight and received hang together: a
    requested block is either still outstanding, or it has been written and
    not been damaged since.

    The peer is honest: it sends a block only in answer to an outstanding
    request, and the block is the part of the piece that was asked for. It
    answers in any order and sends anything else in between. -/

namespace Furrent.Download

open Cpp

/-! ### Honest peers

    Over the events of the loop, newest first. -/

/-- The requests (index, begin and length) that have not been answered. -/
def outstanding : List Event → List (Int × Int × Int)
  | [] => []
  | .sent (.request index begin length) :: t => (index, begin, length) :: outstanding t
  | .received (.piece index begin block) :: t =>
    (outstanding t).erase (index, begin, block.length)
  | _ :: t => outstanding t

/-- Each block answers an outstanding request with the bytes of `R`. -/
def Honest (R : Bytes) : List Event → Prop
  | [] => True
  | .received (.piece index begin block) :: t =>
    (index, begin, (block.length : Int)) ∈ outstanding t ∧
      block = (R.drop begin.toNat).take block.length ∧ Honest R t
  | _ :: t => Honest R t

/-- A received block covers position `x` of the piece. -/
def Written (t : List Event) (x : Int) : Prop :=
  ∃ index begin block, .received (.piece index begin block) ∈ t ∧
    begin ≤ x ∧ x < begin + block.length

variable {R : Bytes} {t : List Event}

theorem Honest.tail {e : Event} (h : Honest R (e :: t)) : Honest R t := by
  unfold Honest at h
  split at h
  · next heq => exact absurd heq (by simp)
  · next heq =>
    obtain ⟨_, rfl⟩ := List.cons.inj heq
    exact h.2.2
  · next heq =>
    obtain ⟨_, rfl⟩ := List.cons.inj heq
    exact h

theorem Written.cons {e : Event} {x : Int} (h : Written t x) : Written (e :: t) x := by
  obtain ⟨index, begin, block, hmem, hle, hlt⟩ := h
  exact ⟨index, begin, block, List.mem_cons_of_mem e hmem, hle, hlt⟩

/-- Other messages answer nothing. -/
theorem outstanding_received {m : Message} (h : ∀ index begin block, m ≠ .piece index begin block) :
    outstanding (.received m :: t) = outstanding t := by
  cases m with
  | piece index begin block => exact absurd rfl (h index begin block)
  | _ => rfl

/-! ### The invariant -/

/-- Block `k` is in the buffer. -/
def Arrived (R : Bytes) (d : Progress) (t : List Event) (k : Int) : Prop :=
  ∀ x, blockOffset k ≤ x → x < blockOffset k + blockLength R.length k →
    d.piece[x.toNat]? = R[x.toNat]? ∧ Written t x

/-- The variables of the loop after the events `t` of it. -/
structure Assembling (R : Bytes) (index : Int) (d : Progress) (t : List Event) : Prop where
  size : d.piece.length = R.length
  le_total : d.blocksRequested ≤ blocksTotal R.length
  in_flight : ((outstanding t).length : Int) = d.blocksRequested - d.blocksReceived
  blocks : ∀ k, 0 ≤ k → k < d.blocksRequested →
    (index, blockOffset k, blockLength R.length k) ∈ outstanding t ∨ Arrived R d t k

variable {index : Int} {d d' : Progress}

theorem assembling_start (index : Int) :
    Assembling R index ⟨List.replicate R.length 0, 0, 0⟩ [] := by
  refine ⟨List.length_replicate, ?_, rfl, ?_⟩
  · show 0 ≤ blocksTotal R.length
    unfold blocksTotal blockSize
    omega
  · intro k h0 hk
    have hk : k < 0 := hk
    omega

/-- Requesting the next block. -/
theorem Assembling.sent (h : Assembling R index d t)
    (hlt : d.blocksRequested < blocksTotal R.length) :
    Assembling R index { d with blocksRequested := d.blocksRequested + 1 }
      (.sent (.request index (blockOffset d.blocksRequested)
        (blockLength R.length d.blocksRequested)) :: t) := by
  have hflight := h.in_flight
  refine ⟨h.size, by show d.blocksRequested + 1 ≤ _; omega, ?_, ?_⟩
  · show ((outstanding t).length + 1 : Int) = d.blocksRequested + 1 - d.blocksReceived
    omega
  · intro k h0 hk
    have hk : k < d.blocksRequested + 1 := hk
    -- The new block is outstanding, the others are as they were.
    by_cases hlast : k = d.blocksRequested
    · left
      rw [hlast]
      exact List.mem_cons_self
    · rcases h.blocks k h0 (by omega) with hout | harrived
      · exact Or.inl (List.mem_cons_of_mem _ hout)
      · right
        intro x hle hlt
        exact ⟨(harrived x hle hlt).1, (harrived x hle hlt).2.cons⟩

/-- A message that carries no block. -/
theorem Assembling.received (h : Assembling R index d t) {m : Message}
    (hm : ∀ index begin block, m ≠ .piece index begin block) :
    Assembling R index d (.received m :: t) := by
  refine ⟨h.size, h.le_total, ?_, ?_⟩
  · rw [outstanding_received hm]
    exact h.in_flight
  · intro k h0 hk
    rw [outstanding_received hm]
    rcases h.blocks k h0 hk with hout | harrived
    · exact Or.inl hout
    · right
      intro x hle hlt
      exact ⟨(harrived x hle hlt).1, (harrived x hle hlt).2.cons⟩

/-- The bytes of a honest block, written in place, are the bytes of `R`. -/
theorem getElem?_overwrite_block {piece block : Bytes} {begin x : Nat}
    (hblock : block = (R.drop begin).take block.length) (hle : begin ≤ x)
    (hlt : x < begin + block.length) :
    (overwrite 0 piece begin block)[x]? = R[x]? := by
  rw [getElem?_overwrite_inside 0 hle hlt, hblock, List.getElem?_take_of_lt (by omega),
    List.getElem?_drop]
  congr 1
  omega

/-- A block in answer to a request. -/
theorem Assembling.piece (h : Assembling R index d t) {i begin : Int} {block : Bytes}
    (hhonest : Honest R (.received (.piece i begin block) :: t)) (h0 : 0 ≤ begin)
    (hin : begin + block.length ≤ d.piece.length) :
    Assembling R index
      { d with
        piece := overwrite 0 d.piece begin.toNat block
        blocksReceived := d.blocksReceived + 1 }
      (.received (.piece i begin block) :: t) := by
  -- The answered request leaves `outstanding` and the counter goes up: the
  -- number in flight stays the difference of the counters.
  obtain ⟨hanswers, hblock, _⟩ := hhonest
  have hfits : begin.toNat + block.length ≤ d.piece.length := by omega
  have hflight := h.in_flight
  have hlen := List.length_erase_of_mem hanswers
  have hpos := List.length_pos_of_mem hanswers
  refine ⟨?_, h.le_total, ?_, ?_⟩
  · show (overwrite 0 d.piece begin.toNat block).length = R.length
    rw [length_overwrite_of_le 0 hfits]
    exact h.size
  · show (((outstanding t).erase (i, begin, (block.length : Int))).length : Int)
      = d.blocksRequested - (d.blocksReceived + 1)
    omega
  · intro k hk0 hk
    -- Bytes inside of the new block come from `R`, all others are as before.
    have hinside : ∀ x, begin ≤ x → x < begin + block.length →
        (overwrite 0 d.piece begin.toNat block)[x.toNat]? = R[x.toNat]? ∧
          Written (.received (.piece i begin block) :: t) x := by
      intro x hle hlt
      exact ⟨getElem?_overwrite_block hblock (by omega) (by omega),
        i, begin, block, List.mem_cons_self, hle, hlt⟩
    -- Block `k` is the one that was answered, or is outstanding still, or had
    -- arrived before; then the new block may overlap it, with the same bytes.
    by_cases hthis : (index, blockOffset k, blockLength R.length k)
        = (i, begin, (block.length : Int))
    · right
      obtain ⟨_, hbegin, hlength⟩ : index = i ∧ blockOffset k = begin ∧
          blockLength R.length k = block.length := by simpa using hthis
      intro x hle hlt
      exact hinside x (by omega) (by omega)
    · rcases h.blocks k hk0 hk with hout | harrived
      · left
        exact (List.mem_erase_of_ne hthis).mpr hout
      · right
        intro x hle hlt
        by_cases hx : begin ≤ x ∧ x < begin + block.length
        · exact hinside x hx.1 hx.2
        · obtain ⟨hsame, hwritten⟩ := harrived x hle hlt
          refine ⟨?_, hwritten.cons⟩
          have hx0 : 0 ≤ x := by
            have : 0 ≤ blockOffset k := by
              unfold blockOffset blockSize
              omega
            omega
          show (overwrite 0 d.piece begin.toNat block)[x.toNat]? = R[x.toNat]?
          rw [getElem?_overwrite_outside 0 hfits (by omega)]
          exact hsame

/-- When the loop is left, the piece is complete. -/
theorem Assembling.complete (h : Assembling R index d t)
    (hdone : blocksTotal R.length ≤ d.blocksReceived) :
    outstanding t = [] ∧ d.piece = R ∧ ∀ x : Nat, x < R.length → Written t x := by
  have hflight := h.in_flight
  have htotal := h.le_total
  -- Received at most requested at most all: the three are equal.
  have hempty : outstanding t = [] := List.length_eq_zero_iff.mp (by omega)
  have harrived : ∀ x : Nat, x < R.length → d.piece[x]? = R[x]? ∧ Written t x := by
    intro x hx
    have hx : (x : Int) < R.length := by omega
    obtain ⟨k, hk0, hk, hle, hlt⟩ := exists_block (by omega) hx
    rcases h.blocks k hk0 (by omega) with hout | harrived
    · rw [hempty] at hout
      exact absurd hout List.not_mem_nil
    · simpa using harrived x hle hlt
  refine ⟨hempty, ?_, fun x hx => (harrived x hx).2⟩
  apply List.ext_getElem?
  intro x
  by_cases hx : x < R.length
  · exact (harrived x hx).1
  · rw [List.getElem?_eq_none (by rw [h.size]; omega), List.getElem?_eq_none (by omega)]

/-! ### The loop -/

variable {W : Type} {env : Env W} {torrent : TorrentFile} {s : State W} {t₀ : List Event}

/-- The invariant of the loop that started with the trace `t₀`. -/
def AssemblingSince (R : Bytes) (index : Int) (t₀ : List Event) (d : Progress) (s : State W) :
    Prop :=
  ∃ t, s.trace = t ++ t₀ ∧ (Honest R t → Assembling R index d t)

variable {length : Int}

/-- What the peer sent is only known to be honest at the end, so the
    invariant carries honesty as a premise. -/
theorem assembling_invariant (hlength : length = R.length) :
    LoopInvariant torrent index length (AssemblingSince (W := W) R index t₀) (fun _ _ => True) := by
  refine ⟨⟨?_, ?_, ?_⟩, ?_, ?_⟩
  · intro d s w h _ hroom
    obtain ⟨t, htrace, hassembling⟩ := h
    refine ⟨.sent (.request index (blockOffset d.blocksRequested)
      (blockLength length d.blocksRequested)) :: t, by simp [htrace], ?_⟩
    rw [hlength] at hroom ⊢
    have hmore : d.blocksRequested - d.blocksReceived < pipelineSizeMax ∧
        d.blocksRequested < blocksTotal R.length := by simpa [room] using hroom
    intro hhonest
    exact (hassembling hhonest.tail).sent hmore.2
  · intros
    trivial
  · intros
    trivial
  · intros
    trivial
  · intro d s m w h _
    obtain ⟨t, htrace, hassembling⟩ := h
    have htrace' : .received m :: s.trace = (.received m :: t) ++ t₀ := by simp [htrace]
    apply wp_handleMessage_progress
    · intro i begin block hm h0 hin
      refine ⟨.received m :: t, htrace', ?_⟩
      rw [hm]
      intro hhonest
      exact (hassembling hhonest.tail).piece hhonest h0 hin
    · intro s' hs' hm
      refine ⟨.received m :: t, by rw [hs']; exact htrace', ?_⟩
      intro hhonest
      exact (hassembling hhonest.tail).received hm

/-! ### The call -/

/-- A piece with the right hash is returned if `verify_piece` can hash it. -/
theorem finishPiece_ok_iff (hhash : torrent.pieceHashes[index.toNat]? = some (env.sha1 R)) :
    finishPiece env torrent index R s = (.ok ⟨index, R⟩, s) ↔ R.length < 2 ^ 29 := by
  unfold finishPiece
  rw [hhash]
  constructor
  · intro h
    obtain ⟨verified, s₁, hverify, _⟩ := Prog.bind_eq_ok h
    exact (verifyPiece_eq_ok_iff.mp (Prog.ofOutcome_eq_ok hverify).1).1
  · intro hlt
    have hverify : verifyPiece env R (env.sha1 R) = .ok true :=
      verifyPiece_eq_ok_iff.mpr ⟨hlt, (decide_eq_true rfl).symm⟩
    simp only [hverify]
    rfl

/-- After a loop that ended normally the call is what `finishPiece` makes
    of the buffer. -/
theorem tryDownload_of_loop {fuel : Nat} {task : Piece} {s s₁ s₂ : State W}
    (hindex : 0 ≤ task.index ∧ task.index < torrent.piecesCount)
    (hconn : ensureConnected env torrent fuel s = (.ok (), s₁))
    (hhas : hasPiece env task.index s₁ = (.ok true, s₁))
    (hpos : 0 < pieceLength torrent task.index)
    (hloop : downloadLoop env torrent task.index (pieceLength torrent task.index) fuel
      ⟨List.replicate (pieceLength torrent task.index).toNat 0, 0, 0⟩ s₁ = (.ok d, s₂)) :
    tryDownload env torrent fuel task s = finishPiece env torrent task.index d.piece s₂ := by
  unfold tryDownload
  rw [if_neg (by omega), if_neg (by omega), Prog.bind_ok hconn, Prog.bind_ok hhas,
    if_neg (by simp), if_neg (by omega), Prog.bind_ok hloop]

/-- A piece of size `|R|` is downloaded from a peer that answers requests
    with the bytes of `R`. Whenever the loop ends normally, no request is
    unanswered, the buffer is `R` and every byte of it has been received. The
    call returns `R` if and only if `R` is shorter than `2 ^ 29` bytes:
    `verify_piece` cannot hash a longer one. -/
theorem tryDownload_honest {fuel : Nat} (task : Piece) (R : Bytes) {s s₁ s₂ : State W}
    (hindex : 0 ≤ task.index ∧ task.index < torrent.piecesCount)
    (hsize : pieceLength torrent task.index = R.length) (hpos : 1 ≤ R.length)
    (hhash : torrent.pieceHashes[task.index.toNat]? = some (env.sha1 R))
    (hconn : ensureConnected env torrent fuel s = (.ok (), s₁))
    (hhas : hasPiece env task.index s₁ = (.ok true, s₁))
    (hloop : downloadLoop env torrent task.index (pieceLength torrent task.index) fuel
      ⟨List.replicate (pieceLength torrent task.index).toNat 0, 0, 0⟩ s₁ = (.ok d, s₂)) :
    ∃ t, s₂.trace = t ++ s₁.trace ∧
      (Honest R t →
        outstanding t = [] ∧ d.piece = R ∧ (∀ x : Nat, x < R.length → Written t x) ∧
          (tryDownload env torrent fuel task s = (.ok ⟨task.index, R⟩, s₂) ↔
            R.length < 2 ^ 29)) := by
  have hstart : AssemblingSince R task.index s₁.trace
      ⟨List.replicate (pieceLength torrent task.index).toNat 0, 0, 0⟩ s₁ := by
    refine ⟨[], rfl, fun _ => ?_⟩
    rw [hsize, Int.toNat_natCast]
    exact assembling_start task.index
  obtain ⟨⟨t, htrace, hassembling⟩, hdone⟩ :=
    Prog.wp_ok ((assembling_invariant hsize).wp_loop (fun _ _ _ => trivial) hstart) hloop
  refine ⟨t, htrace, ?_⟩
  intro hhonest
  rw [hsize] at hdone
  obtain ⟨hempty, hpiece, hwritten⟩ := (hassembling hhonest).complete hdone
  refine ⟨hempty, hpiece, hwritten, ?_⟩
  rw [tryDownload_of_loop hindex hconn hhas (by omega) hloop, hpiece]
  exact finishPiece_ok_iff hhash

/-- One piece of three bytes. -/
def threeBytes : TorrentFile :=
  { pieceHashes := [[1, 2, 3]], pieceLength := 3, length := 3, piecesCount := 1 }

/-- The peer has the piece. It chokes us after the request, announces the
    piece again, unchokes us and answers. -/
def answers : Bytes :=
  announces 128 ++ [0, 0, 0, 1, 0] ++ [0, 0, 0, 5, 4, 0, 0, 0, 0] ++ [0, 0, 0, 1, 1]
    ++ [0, 0, 0, 12, 7, 0, 0, 0, 0, 0, 0, 0, 0, 1, 2, 3]

theorem tryDownload_honest_three_bytes :
    (tryDownload listEnv threeBytes 8 ⟨0, []⟩ { world := answers }).1 = .ok ⟨0, [1, 2, 3]⟩ := by
  obtain ⟨s₁, hs₁⟩ : ∃ s₁, s₁ = (ensureConnected listEnv threeBytes 8 { world := answers }).2 :=
    ⟨_, rfl⟩
  obtain ⟨s₂, hs₂⟩ : ∃ s₂, s₂ = (downloadLoop listEnv threeBytes 0 (pieceLength threeBytes 0) 8
      ⟨List.replicate (pieceLength threeBytes 0).toNat 0, 0, 0⟩ s₁).2 := ⟨_, rfl⟩
  have hconn : (ensureConnected listEnv threeBytes 8 { world := answers }).1 = .ok () := by
    decide +kernel
  have hhas : (hasPiece listEnv 0 s₁).1 = .ok true := by
    rw [hs₁]
    decide +kernel
  have hloop : (downloadLoop listEnv threeBytes 0 (pieceLength threeBytes 0) 8
      ⟨List.replicate (pieceLength threeBytes 0).toNat 0, 0, 0⟩ s₁).1
        = .ok ⟨[1, 2, 3], 1, 1⟩ := by
    rw [hs₁]
    decide +kernel
  have htrace : s₂.trace = [.received (.piece 0 0 [1, 2, 3]), .received .unchoke,
      .received (.haveMsg 0), .received .choke, .sent (.request 0 0 3)] ++ s₁.trace := by
    rw [hs₂, hs₁]
    decide +kernel
  obtain ⟨t, ht, hhonest⟩ := tryDownload_honest ⟨0, []⟩ [1, 2, 3] (by decide) (by decide)
    (by decide) rfl (Prod.ext hconn hs₁.symm) (Prod.ext hhas (hasPiece_state s₁))
    (Prod.ext hloop hs₂.symm)
  rw [htrace] at ht
  rw [← List.append_cancel_right ht] at hhonest
  obtain ⟨_, _, _, hok⟩ := hhonest ⟨by decide, by decide, trivial⟩
  rw [hok.mpr (by decide)]

end Furrent.Download
