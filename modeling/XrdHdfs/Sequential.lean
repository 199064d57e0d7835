import XrdHdfs.Growing

/-!
# Reading a file from one end to the other

A client that goes on where its last `Read` stopped, and asks for no more than the buffer holds.  What HDFS is asked for
is then one piece of the file after the other: the buffer is filled where the last fill ended, and what it has left over
is served first (`Ahead`).  So every byte is fetched once, no more than a buffer ahead of the client, and the two counts
that `Close` reports differ by what has been fetched and not been returned (`reads_once`).
-/

namespace XrdHdfs

open Lib

/-! ### What has been fetched -/

namespace Access

/-- How far the file has been fetched, after one access. -/
def fetch (e : ℤ) : Access → ℤ
  | .pread _ _ n => e + max n 0
  | .place _ | .fill _ _ | .copy _ _ _ => e

/-- A call of `hdfsPread` goes on where the last one ended. -/
def GoesOn (e : ℤ) : Access → Prop
  | .pread pos _ _ => pos = e
  | .place _ | .fill _ _ | .copy _ _ _ => True

end Access

/-- How far it has been fetched after a sequence of accesses. -/
def fetchedTo (e : ℤ) (as : List Access) : ℤ := as.foldl Access.fetch e

/-- No call leaves a gap, and none fetches what another one has. -/
def Gapless : ℤ → List Access → Prop
  | _, [] => True
  | e, a :: as => a.GoesOn e ∧ Gapless (a.fetch e) as

theorem fetchedTo_append (e : ℤ) (as bs : List Access) : fetchedTo e (as ++ bs) = fetchedTo (fetchedTo e as) bs :=
  List.foldl_append

theorem gapless_append {as bs : List Access} {e : ℤ} :
    Gapless e (as ++ bs) ↔ Gapless e as ∧ Gapless (fetchedTo e as) bs := by
  induction as generalizing e with
  | nil => simp [Gapless, fetchedTo]
  | cons a as ih =>
    simp only [List.cons_append, Gapless, ih, and_assoc]
    rfl

namespace Readbuf

/-- Every `Read` goes through the buffer, succeeds, and starts where the one before it stopped; the last stops at `o'`. -/
def Sequential : ℤ → List ReadStep → ℤ → Prop
  | o, [], o' => o = o'
  | o, st :: steps, o' => st.call.offset.toInt = o ∧ st.call.blen.toNat ≤ st.rb.size ∧ 0 ≤ st.out.ret ∧
      Sequential (o + st.out.ret) steps o'

instance decidableSequential : ∀ (o : ℤ) (steps : List ReadStep) (o' : ℤ), Decidable (Sequential o steps o')
  | o, [], o' => inferInstanceAs (Decidable (o = o'))
  | o, st :: steps, o' =>
    have := decidableSequential (o + st.out.ret) steps o'
    inferInstanceAs (Decidable (st.call.offset.toInt = o ∧ st.call.blen.toNat ≤ st.rb.size ∧ 0 ≤ st.out.ret ∧
      Sequential (o + st.out.ret) steps o'))

/-- **The invariant.** The client is at `o` and the file has been fetched up to `e`: what lies between is what the buffer
has left over, and what `bytesLoaded` has more than `bytesUsed`. -/
structure Ahead (rb : Readbuf) (o e : ℤ) : Prop where
  place : (rb.len = 0 ∧ e = o) ∨ (rb.offset ≤ o ∧ o ≤ e ∧ e = rb.offset + rb.len)
  ledger : rb.bytesLoaded = rb.bytesUsed + (e - o).toNat.toUInt64

theorem Ahead.le {rb : Readbuf} {o e : ℤ} (h : Ahead rb o e) : o ≤ e ∧ e - o ≤ rb.len := by
  rcases h.place with ⟨hlen, rfl⟩ | ⟨hlo, hle, rfl⟩
  · omega
  · omega

theorem ahead_open (rb : Readbuf) (malloc : Option (ℤ → UInt8)) (o : ℤ) : Ahead (rb.openReadbuf malloc) o o := by
  unfold openReadbuf
  refine ⟨Or.inl ⟨?_, rfl⟩, ?_⟩
  · split <;> rfl
  · rw [sub_self]
    split <;> rfl

section Sequential

variable {σ : Type} {hdfsPread : ℤ → ℤ → σ → PreadAnswer × σ} {S : σ → Prop} {content : σ → FileContent}
  {F : FileContent} {rb : Readbuf} {o e : ℤ} {blen : ℕ}

/-! ### One `Read` -/

theorem toUInt64_add (m n : ℕ) : (m + n).toUInt64 = m.toUInt64 + n.toUInt64 := UInt64.ofNat_add m n

theorem BufferHolds.end_lt (hb : BufferHolds F.bytes rb) : rb.offset + rb.len < 2 ^ 63 := by
  have hup := hb.upper
  have hlt := F.length_lt
  rcases Nat.eq_zero_or_pos rb.len with h0 | hpos
  · omega
  · have hend := hb.end_le hpos
    omega

/-- A full hit stays within what has been fetched. -/
theorem Ahead.hit (h : Ahead rb o e) (hb : BufferHolds F.bytes rb) (ho : 0 ≤ o) (ho' : o < 2 ^ 63) (hsize : blen ≤ rb.size)
    (hhit : rb.FullHit o blen) :
    Ahead { rb with hits := rb.hits + 1, bytesUsed := rb.bytesUsed + blen.toUInt64 } (o + blen) e := by
  obtain ⟨hlo, hhi⟩ := hhit
  have hup := hb.end_lt
  have hcap := rb.size_le
  have hnn := hb.nonneg
  rw [u64_of_lt (by omega) (by omega), u64_of_lt (by omega) (by omega)] at hhi
  obtain ⟨k, hk⟩ : ∃ k : ℕ, (k : ℤ) = e - o := ⟨(e - o).toNat, by have := h.le.1; omega⟩
  have hkblen : blen ≤ k := by
    rcases h.place with ⟨hlen, heq⟩ | ⟨-, -, heq⟩ <;> omega
  constructor
  · rcases h.place with ⟨hlen, heq⟩ | ⟨-, -, heq⟩
    · exact Or.inl ⟨hlen, by omega⟩
    · exact Or.inr ⟨by dsimp only; omega, by omega, heq⟩
  · have hled := h.ledger
    rw [← hk, Int.toNat_natCast, show k = blen + (k - blen) by omega, toUInt64_add, ← UInt64.add_assoc] at hled
    rw [show e - (o + blen) = ((k - blen : ℕ) : ℤ) by omega, Int.toNat_natCast]
    exact hled

/-- What is not a full hit: the buffer serves all it has left, and the loop goes on where the file has been fetched to. -/
theorem Ahead.serve (h : Ahead rb o e) (hb : BufferHolds F.bytes rb) (ho : 0 ≤ o) (ho' : o < 2 ^ 63)
    (hmiss : ¬ rb.FullHit o blen) :
    (rb.serve o blen).1.offset = e ∧ (rb.serve o blen).1.nbytes = e - o ∧
      (rb.serve o blen).2.bytesLoaded = (rb.serve o blen).2.bytesUsed ∧
      Gapless e (rb.serve o blen).1.accesses ∧ fetchedTo e (rb.serve o blen).1.accesses = e := by
  have hup := hb.end_lt
  have hcap := rb.size_le
  have hnn := hb.nonneg
  have hlen := hb.len_le
  have hled := h.ledger
  have hend : s64 (rb.offset + s64 rb.len) = rb.offset + rb.len := by
    rw [s64_of_lt (by omega) (by omega : (rb.len : ℤ) < 2 ^ 63), s64_of_lt (by omega) (by omega)]
  unfold Readbuf.serve
  by_cases hpart : rb.PartialHit o
  · rw [if_pos hpart]
    obtain ⟨hlo, hlt⟩ := hpart
    rw [hend] at hlt
    obtain ⟨heq, hle⟩ : e = rb.offset + rb.len ∧ o ≤ e := by
      rcases h.place with ⟨h0, -⟩ | ⟨-, hle, heq⟩ <;> omega
    have e1 : s64 (o - rb.offset) = o - rb.offset := s64_of_lt (by omega) (by omega)
    have e2 : s64 (rb.len - (o - rb.offset)) = e - o := by rw [s64_of_lt (by omega) (by omega)]; omega
    have e3 : u64 (e - o) = e - o := u64_of_lt (by omega) (by omega)
    have e4 : s64 (o + (e - o)) = e := by rw [s64_of_lt (by omega) (by omega)]; omega
    simp only [e1, e2, e3, e4]
    exact ⟨trivial, trivial, hled, ⟨trivial, trivial⟩, rfl⟩
  · rw [if_neg hpart]
    have heq : e = o := by
      rcases h.place with ⟨-, heq⟩ | ⟨hlo, hle, heq⟩
      · exact heq
      · have hnot : ¬ o < rb.offset + rb.len := by
          intro hlt
          exact hpart ⟨hlo, hend.symm ▸ hlt⟩
        omega
    subst heq
    rw [sub_self, Int.toNat_zero] at hled
    exact ⟨rfl, (sub_self _).symm, hled.trans (UInt64.add_zero _), trivial, rfl⟩

/-- What the loop that fills the buffer keeps: the buffer holds what it has fetched. -/
def FillsFrom (S : σ → Prop) (content : σ → FileContent) (e : ℤ) (size : ℕ) (u : UInt64) (b : Readbuf × List Access)
    (s : σ) : Prop :=
  Refilling S (content s).bytes e size b s ∧ b.1.bytesUsed = u ∧ b.1.bytesLoaded = u ∧ Gapless e b.2 ∧
    fetchedTo e b.2 = e + b.1.len

theorem refillTurn_fillsFrom (hserves : ServesGrowing S content hdfsPread) {size : ℕ} {u : UInt64} (b : Readbuf × List Access)
    (s : σ) (h : FillsFrom S content e size u b s) :
    Ends (refillTurn hdfsPread e b) s fun r s' =>
      Sum.elim (fun b' => FillsFrom S content e size u b' s') (fun c => FillsFrom S content e size u c.2 s') r := by
  obtain ⟨rb, acc⟩ := b
  obtain ⟨hr, hused, hloaded, hgap, hto⟩ := h
  obtain ⟨hposeq, -, -⟩ := hr.request
  dsimp only at hused hloaded hgap hto
  -- a turn adds one call, at the end of what the buffer holds
  have hcall : ∀ want n : ℤ, Gapless e (acc ++ [.pread (e + rb.len) want n]) ∧
      fetchedTo e (acc ++ [.pread (e + rb.len) want n]) = e + rb.len + max n 0 := by
    intro want n
    rw [gapless_append, fetchedTo_append, hto]
    exact ⟨⟨hgap, rfl, trivial⟩, rfl⟩
  have hstays : ∀ want n : ℤ, n ≤ 0 → Gapless e (acc ++ [.pread (e + rb.len) want n]) ∧
      fetchedTo e (acc ++ [.pread (e + rb.len) want n]) = e + rb.len := by
    intro want n hn
    obtain ⟨hgap', hto'⟩ := hcall want n
    exact ⟨hgap', by omega⟩
  refine ((refillTurn_grows hserves _ s hr).and (refillTurn_cases hdfsPread e rb acc s
    (Q := fun r _ => Sum.elim (fun b' => b'.1.bytesUsed = u ∧ b'.1.bytesLoaded = u ∧ Gapless e b'.2 ∧
      fetchedTo e b'.2 = e + b'.1.len) (fun c => c.2.1.bytesUsed = u ∧ c.2.1.bytesLoaded = u ∧ Gapless e c.2.2 ∧
      fetchedTo e c.2.2 = e + c.2.1.len) r) (fun _ => ⟨hused, hloaded, hgap, hto⟩) ?_)).mono ?_
  · rintro hlt pos want a s' rfl - ha
    rw [hposeq]
    refine ⟨fun hn _ => ⟨hused, hloaded, hstays want a.n hn.le⟩, fun _ hn => ⟨hused, hloaded, hstays want a.n (by omega)⟩,
      fun _ hn => ⟨hused, hloaded, hstays want a.n hn.le⟩, fun hn => ⟨hused, hloaded, ?_⟩⟩
    obtain ⟨hgap', hto'⟩ := hcall want a.n
    have hlen := PreadAnswer.n_eq_length hn.le
    refine ⟨gapless_append.2 ⟨hgap', trivial, trivial⟩, ?_⟩
    rw [fetchedTo_append, hto']
    simp only [fetchedTo, List.foldl_cons, List.foldl_nil, Access.fetch, store_len]
    omega
  · rintro (b' | c) s' ⟨⟨-, hr'⟩, hrest⟩
    · exact ⟨hr', hrest⟩
    · exact ⟨hr'.1, hrest⟩

/-- **One `Read`** of a client that goes on where it was. -/
theorem read_ahead (hserves : ServesGrowing S content hdfsPread) (s : σ) (hs : S s) (hb : BufferHolds (content s).bytes rb)
    (h : Ahead rb o e) (ho : 0 ≤ o) (ho' : o < 2 ^ 63) (hsize : blen ≤ rb.size) :
    Ends (rb.read hdfsPread o blen) s fun r _ => 0 ≤ r.1.ret →
      Gapless e r.1.accesses ∧ Ahead r.2 (o + r.1.ret) (fetchedTo e r.1.accesses) := by
  unfold read
  refine Ends.ite (fun hby => absurd hby (by omega)) fun _ => Ends.ite (fun hhit => ?_) fun hmiss => ?_
  · exact Ends.pure fun _ => ⟨⟨trivial, trivial⟩, h.hit hb ho ho' hsize hhit⟩
  obtain ⟨k, -, -, -, -, hlt, -, -, hsz⟩ := serve_holds hb ho ho' hsize hmiss
  obtain ⟨hoff, hn, hled, hgap, hto⟩ := h.serve hb ho ho' hmiss
  generalize rb.serve o blen = sv at hoff hn hled hgap hto hsz
  obtain ⟨sv, rb₁⟩ := sv
  dsimp only at hoff hn hled hgap hto hsz ⊢
  subst hoff
  have hle := h.le.1
  have hup := hb.end_lt
  have hstart : FillsFrom S content sv.offset rb.size rb₁.bytesUsed
      (rb₁.place sv.offset, sv.accesses ++ [.place sv.offset]) s := by
    refine ⟨⟨bufferHolds_place (by omega) ?_, rfl, hsz, hs⟩, rfl, hled, gapless_append.2 ⟨hgap, trivial, trivial⟩, ?_⟩
    · rcases h.place with ⟨-, heq⟩ | ⟨-, -, heq⟩ <;> omega
    · rw [fetchedTo_append, hto]
      exact (Int.add_zero _).symm
  refine Ends.bind ((Ends.loop (FillsFrom S content sv.offset rb.size rb₁.bytesUsed)
    (refillTurn_fillsFrom hserves) _ s hstart).mono ?_)
  rintro ⟨err, rb', acc⟩ s' ⟨⟨hb', hoff', -, -⟩, hused, hloaded, hgap', hto'⟩
  dsimp only at hb' hoff' hused hloaded hgap' hto'
  cases err with
  | some errno =>
    refine Ends.pure fun hret => ?_
    have hneg := emsg_neg errno
    dsimp only at hret
    omega
  | none =>
    refine Ends.pure fun _ => ?_
    dsimp only
    obtain ⟨c, hc⟩ : ∃ c, c = if rb'.len < sv.blen then rb'.len else sv.blen := ⟨_, rfl⟩
    have hcle : c ≤ rb'.len := by
      rw [hc]
      split_ifs <;> omega
    rw [← hc, hn]
    have hto'' : fetchedTo sv.offset (acc ++ [.copy 0 c rb'.len]) = sv.offset + rb'.len := by
      rw [fetchedTo_append, hto']
      rfl
    refine ⟨gapless_append.2 ⟨hgap', trivial, trivial⟩, ?_, ?_⟩
    · rw [hto'']
      exact Or.inr ⟨by dsimp only; omega, by omega, by dsimp only; omega⟩
    · rw [hto'', show (sv.offset + rb'.len - (o + (sv.offset - o + c))).toNat = rb'.len - c by omega]
      dsimp only
      rw [hloaded, hused]

/-! ### Runs -/

/-- **Reading sequentially fetches every byte once.**  After an `Open`, for every sequence of `Read`s that go through the
buffer, succeed and follow one another from `o` to `o'`, while others may append to the file: the calls of `hdfsPread` go
through the file without a gap and without asking again for what they got, they are at most the buffer's size ahead of the
client, and by as much `bytesLoaded` is ahead of `bytesUsed`. -/
theorem reads_once (hserves : ServesGrowing S content hdfsPread) (rb rb' : Readbuf) (malloc : Option (ℤ → UInt8))
    (cs : List ReadCall) (fuel : ℕ) (s s' : σ) (hs : S s) (steps : List ReadStep) {o o' : ℤ} (ho : 0 ≤ o)
    (hrun : (reads hdfsPread (rb.openReadbuf malloc) cs).run fuel s = some ((steps, rb'), s'))
    (hseq : Sequential o steps o') :
    Gapless o (steps.flatMap fun st => st.out.accesses) ∧
      ∃ ahead : ℕ, fetchedTo o (steps.flatMap fun st => st.out.accesses) = o' + ahead ∧ ahead ≤ 32768 ∧
        rb'.bytesLoaded = rb'.bytesUsed + ahead.toUInt64 := by
  have hb := bufferHolds_open (F := content s) rb malloc
  have h := ahead_open rb malloc o
  suffices ∀ e rb₀, BufferHolds (content s).bytes rb₀ → Ahead rb₀ o e →
      (reads hdfsPread rb₀ cs).run fuel s = some ((steps, rb'), s') →
      Gapless e (steps.flatMap fun st => st.out.accesses) ∧
        Ahead rb' o' (fetchedTo e (steps.flatMap fun st => st.out.accesses)) ∧ rb'.len ≤ rb'.size by
    obtain ⟨hgap, hahead, hlen⟩ := this o _ hb h hrun
    obtain ⟨hle, hlen'⟩ := hahead.le
    have hcap := rb'.size_le
    refine ⟨hgap, (fetchedTo o (steps.flatMap fun st => st.out.accesses) - o').toNat, by omega, by omega, hahead.ledger⟩
  clear hrun hb h rb
  intro e rb₀ hb h hrun
  induction cs generalizing rb₀ s steps o e with
  | nil =>
    cases hrun
    cases hseq
    exact ⟨trivial, h, hb.len_le⟩
  | cons c cs ih =>
    obtain ⟨⟨out, rb₁⟩, s₁, hread, hrest⟩ := Prog.run_bind_some.1 hrun
    obtain ⟨⟨steps', rb₂⟩, s₂, hrest, heq⟩ := Prog.run_bind_some.1 hrest
    cases heq
    obtain ⟨rfl, hblen, hret, hseq⟩ := hseq
    have hlt : c.offset.toInt < 2 ^ 63 := Int64.toInt_lt c.offset
    obtain ⟨hs₁, -, hb₁, -⟩ := read_grows hserves rb₀ s hs hb ho hlt fuel (out, rb₁) s₁ hread
    obtain ⟨hgap, hahead⟩ := read_ahead hserves s hs hb h ho hlt hblen fuel (out, rb₁) s₁ hread hret
    obtain ⟨hgap', hrest'⟩ := ih s₁ hs₁ steps' (Int.add_nonneg ho hret) hseq _ rb₁ hb₁ hahead hrest
    rw [List.flatMap_cons, gapless_append, fetchedTo_append]
    exact ⟨⟨hgap, hgap'⟩, hrest'⟩

end Sequential

/-- Eight bytes, read 3 at a time, and then the end of the file. -/
theorem reads_once_short :
    ((reads (preadShort (str "abcdefgh")) (openReadbuf {} (some fun _ => 0)) [⟨0, 3⟩, ⟨3, 3⟩, ⟨6, 3⟩, ⟨8, 3⟩]).run 9
      false).isSome ∧
    ∀ r ∈ (reads (preadShort (str "abcdefgh")) (openReadbuf {} (some fun _ => 0)) [⟨0, 3⟩, ⟨3, 3⟩, ⟨6, 3⟩, ⟨8, 3⟩]).run 9
        false,
      Gapless 0 (r.1.1.flatMap fun st => st.out.accesses) ∧
        ∃ ahead : ℕ, fetchedTo 0 (r.1.1.flatMap fun st => st.out.accesses) = 8 + ahead ∧ ahead ≤ 32768 ∧
          r.1.2.bytesLoaded = r.1.2.bytesUsed + ahead.toUInt64 := by
  refine ⟨by decide, fun r hr => ?_⟩
  have hseq : ∀ r ∈ (reads (preadShort (str "abcdefgh")) (openReadbuf {} (some fun _ => 0))
      [⟨0, 3⟩, ⟨3, 3⟩, ⟨6, 3⟩, ⟨8, 3⟩]).run 9 false, Sequential 0 r.1.1 8 := by decide
  exact reads_once (Serves.growing (F := ⟨str "abcdefgh", by decide⟩) (serves_preadShort (str "abcdefgh"))) {} r.1.2
    (some fun _ => 0) [⟨0, 3⟩, ⟨3, 3⟩, ⟨6, 3⟩, ⟨8, 3⟩] 9 false r.2 trivial r.1.1 (by decide) hr (hseq r hr)

end Readbuf

end XrdHdfs
