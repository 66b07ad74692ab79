import MonadServices.Rpc.BlockBuffer

/-!
# Lookups in the block buffer during an insertion

One writer inserts events, and any number of lookups run beside it. Each access to a map is one
step; a lookup that keeps a reference to an entry keeps the writer from that entry and from
nothing else. The lookup of a block by its hash copies the height and keeps no reference, the
lookup of a transaction keeps the reference to its place, and the lookup of receipts keeps the
reference to the block while it goes through its transactions.

A new block is put at its height before the hash and the transactions of the old one are removed.
Between the two the old hash leads to the new block. And where two buffered blocks share a
transaction, the receipts of one contain a receipt of the other. **Without either the lookups are
right in every interleaving** (`MonadServices.Rpc.Buffer.Race.lookups_right`).
-/

namespace MonadServices

namespace Rpc

namespace Buffer

namespace Race

/-! ### The system -/

/-- What can be asked. -/
inductive Query where
  | blockByHash (h : B256)
  | transactionByHash (t : B256)
  | receiptsByBlockHeight (n : UInt64)

/-- A lookup after its first access. -/
inductive Reader (K : Kinds) where
  /-- The lookup has returned. -/
  | finished
  /-- `get_block_by_hash` has copied the height. -/
  | blockByHash (h : B256) (height : UInt64)
  /-- `get_transaction_by_hash` holds the entry of the transaction. -/
  | transactionByHash (t : B256) (loc : TxLoc)
  /-- `get_receipts_by_block_height` holds the entry of the block; it has the receipts `receipts`
  and still has to find those of `todo`. -/
  | receiptsByBlockHeight (n : UInt64) (todo : List B256) (receipts : List K.Receipt)

/-- What a lookup returned. -/
inductive Answer (K : Kinds) where
  | block (h : B256) (b : Option (Block K))
  | transaction (t : B256) (tx : Option K.Tx)
  | receipts (n : UInt64) (rs : Option (List K.Receipt))

/-- **The buffer with the writes that are left of the last insertion**, and the lookups. The
events whose insertion has begun are remembered. -/
structure System (K : Kinds) where
  buffer : State K
  pending : List (Write K)
  readers : List (Reader K)
  answers : List (Answer K)
  begun : List (Event K)

/-- A step of the writer or of a lookup. -/
inductive Act (K : Kinds) where
  | begin (e : Event K)
  | write
  | ask (q : Query)
  | proceed (i : ℕ)

variable {K : Kinds}

/-- The entry of a write is held by a lookup. -/
def Reader.holds : Reader K → Write K → Bool
  | .transactionByHash t _, .putTx u _ _ | .transactionByHash t _, .removeTx u => t = u
  | .receiptsByBlockHeight n _ _, .putBlock height _
  | .receiptsByBlockHeight n _ _, .removeBlock height => n = height
  | _, _ => false

namespace System

/-- Nothing has happened. -/
def new (capacity : ℕ) : System K := ⟨.new capacity, [], [], [], []⟩

/-- A lookup returns. -/
def answer (σ : System K) (a : Answer K) : System K := { σ with answers := a :: σ.answers }

/-- The first access of a lookup. -/
def ask (σ : System K) : Query → System K
  | .blockByHash h =>
    match σ.buffer.maps.blockHeightByHash h with
    | none => σ.answer (.block h none)
    | some height => { σ with readers := σ.readers ++ [.blockByHash h height] }
  | .transactionByHash t =>
    match σ.buffer.maps.txByHash t with
    | none => σ.answer (.transaction t none)
    | some (loc, _) => { σ with readers := σ.readers ++ [.transactionByHash t loc] }
  | .receiptsByBlockHeight n =>
    match σ.buffer.maps.blockByHeight n with
    | none => σ.answer (.receipts n none)
    | some b => { σ with readers := σ.readers ++ [.receiptsByBlockHeight n b.txHashes []] }

/-- A further access: what the lookup is then, and what it returned if it is finished. -/
def access (m : Maps K) : Reader K → Reader K × Option (Answer K)
  | .finished => (.finished, none)
  | .blockByHash h height => (.finished, some (.block h (m.blockByHeight height)))
  | .transactionByHash t loc =>
    (.finished, some (.transaction t (m.getTransactionByLocation loc.blockHeight loc.txIdx)))
  | .receiptsByBlockHeight n [] receipts => (.finished, some (.receipts n (some receipts)))
  | .receiptsByBlockHeight n (t :: todo) receipts =>
    match m.getReceiptByTxHash t with
    | none => (.finished, some (.receipts n none))
    | some r => (.receiptsByBlockHeight n todo (receipts ++ [r]), none)

/-- **A step**, if it is possible. -/
def step (σ : System K) : Act K → Option (System K)
  | .begin e =>
    match σ.pending with
    | [] => some { σ with
        buffer := { σ.buffer.insert e with maps := σ.buffer.maps }
        pending := σ.buffer.insertWrites e
        begun := σ.begun ++ [e] }
    | _ :: _ => none
  | .write =>
    match σ.pending with
    | [] => none
    | w :: ws =>
      if σ.readers.any (·.holds w) then none
      else some { σ with
        buffer := { σ.buffer with maps := σ.buffer.maps.write w }
        pending := ws }
  | .ask q => some (σ.ask q)
  | .proceed i =>
    match σ.readers[i]? with
    | none => none
    | some r =>
      some { σ with
        readers := σ.readers.set i (access σ.buffer.maps r).1
        answers := (access σ.buffer.maps r).2.toList ++ σ.answers }

end System

/-- The system after a sequence of steps, if they are possible. -/
def run (capacity : ℕ) (acts : List (Act K)) : Option (System K) :=
  acts.foldlM System.step (System.new capacity)

/-- **An answer is right**: it has the hash that was asked for, or is the receipts of one of the
blocks `stored`. -/
def Answer.Right (stored : List (ExecutedBlock K)) : Answer K → Prop
  | .block h b => ∀ c, b = some c → K.hash c.header = h
  | .transaction t tx => ∀ u, tx = some u → K.txHash u = t
  | .receipts n rs => ∀ l, rs = some l → ∃ b ∈ stored, b.number = n ∧ b.receipts = l

/-- **Calm events**: of one chain of execution, without two blocks at one height, and apart. -/
structure Calm (capacity : ℕ) (events : List (Event K)) : Prop where
  coherent : Coherent events
  apart : ∀ pre e, pre ++ [e] <+: events → (Buffer.run capacity pre).Apart e
  one : ∀ b ∈ storedBlocks capacity events, ∀ b' ∈ storedBlocks capacity events,
    b.number = b'.number → b = b'

theorem Calm.mono {capacity : ℕ} {pre events : List (Event K)} (hcalm : Calm capacity events)
    (hpre : pre <+: events) : Calm capacity pre := by
  refine ⟨hcalm.coherent.mono fun e he => hpre.subset he, fun pre' e hpre' =>
    hcalm.apart pre' e (hpre'.trans hpre), fun b hb b' hb' => ?_⟩
  exact hcalm.one b (storedBlocks_subset hpre hb) b' (storedBlocks_subset hpre hb')

/-! ### Whose transactions are indexed -/

/-- The transactions of a buffered block are indexed at its height or not at all, and this stays
so if the block `new` is put in all maps. -/
structure Owned (m : Maps K) (new : Option (ExecutedBlock K)) : Prop where
  own : ∀ n b, m.blockByHeight n = some b → ∀ t ∈ b.txHashes, ∀ v, m.txByHash t = some v →
    v.1.blockHeight = n
  block_new : ∀ eb, new = some eb → ∀ n b, m.blockByHeight n = some b → ∀ t ∈ eb.txHashes,
    t ∈ b.txHashes → n = eb.number
  tx_new : ∀ eb, new = some eb → ∀ t ∈ eb.txHashes, ∀ v, m.txByHash t = some v →
    v.1.blockHeight = eb.number

/-- Maps in agreement can take a block that is apart. -/
theorem Owned.of_agree {s : State K} {known : ExecutedBlock K → Prop} (hs : s.maps.Agree known)
    {e : Event K} (hapart : s.Apart e) : Owned s.maps (s.stored e) where
  own n b hb t ht v hv := by
    obtain ⟨i, r, hn⟩ := hs.txByHash_eq hb ht
    rw [hv, Option.some.injEq] at hn
    rw [hn]
  block_new eb heb n b hb t ht ht' := by
    by_contra hne
    exact hapart eb heb n b hb hne t ht ht'
  tx_new eb heb t ht v hv := by
    obtain ⟨b, hb, ht'⟩ := hs.mem_txHashes hv
    by_contra hne
    exact hapart eb heb _ b hb hne t ht ht'

/-- **Each write of the insertion keeps the transactions with their blocks.** -/
theorem Owned.write {m : Maps K} {new : Option (ExecutedBlock K)} (hm : Owned m new)
    {w : Write K} (hw : w.From fun b => new = some b) : Owned (m.write w) new := by
  cases w with
  | putBlock n b =>
    obtain ⟨eb, heb, rfl, rfl⟩ := hw
    refine { hm with own := ?_, block_new := fun eb' heb' => ?_ }
    · refine Maps.forall_update hm.own eb.number fun b hb t ht v hv => ?_
      obtain rfl := Option.some.inj hb
      rw [ExecutedBlock.txHashes_toBlock] at ht
      exact hm.tx_new eb heb t ht v hv
    · obtain rfl : eb = eb' := Option.some.inj (heb.symm.trans heb')
      exact Maps.forall_update (hm.block_new eb heb) eb.number fun b hb t ht ht' => rfl
  | putHash h n => exact ⟨hm.own, hm.block_new, hm.tx_new⟩
  | putTx t loc r =>
    obtain ⟨eb, heb, hnum, e, hidx, rfl, rfl⟩ := hw
    have hmem : K.txHash e.tx ∈ eb.txHashes := List.mem_map_of_mem (List.mem_of_getElem? hidx)
    refine { hm with own := fun n b hb t ht v hv => ?_, tx_new := fun eb' heb' t ht v hv => ?_ }
    · refine Maps.forall_update (P := fun t v => t ∈ b.txHashes → v.1.blockHeight = n)
        (fun t v hv ht => hm.own n b hb t ht v hv) (K.txHash e.tx) (fun v hv ht => ?_) t v hv ht
      obtain rfl := Option.some.inj hv
      exact hnum.symm.trans (hm.block_new eb heb n b hb _ hmem ht).symm
    · obtain rfl : eb = eb' := Option.some.inj (heb.symm.trans heb')
      refine Maps.forall_update (P := fun t v => t ∈ eb.txHashes → v.1.blockHeight = eb.number)
        (fun t v hv ht => hm.tx_new eb heb t ht v hv) (K.txHash e.tx) (fun v hv ht => ?_) t v hv ht
      obtain rfl := Option.some.inj hv
      exact hnum.symm
  | removeBlock n =>
    refine { hm with own := ?_, block_new := fun eb heb => ?_ }
    · exact Maps.forall_update hm.own n fun b hb => by simp at hb
    · exact Maps.forall_update (hm.block_new eb heb) n fun b hb => by simp at hb
  | removeHash h => exact ⟨hm.own, hm.block_new, hm.tx_new⟩
  | removeTx t =>
    have hsub : ∀ u v, (m.write (.removeTx t)).txByHash u = some v → m.txByHash u = some v :=
      Maps.forall_update (fun u v hv => hv) t fun v hv => by simp at hv
    exact { hm with
      own := fun n b hb u hu v hv => hm.own n b hb u hu v (hsub u v hv)
      tx_new := fun eb heb u hu v hv => hm.tx_new eb heb u hu v (hsub u v hv) }

/-! ### The lookups under way -/

/-- **What a lookup has seen is of one of the blocks `stored`**; the block whose entry is held is
still there. -/
def Reader.Sound (stored : List (ExecutedBlock K)) (m : Maps K) : Reader K → Prop
  | .finished => True
  | .blockByHash h height => ∃ b ∈ stored, b.number = height ∧ b.hash = h
  | .transactionByHash t loc => ∃ b ∈ stored, ∃ r, b.Has t (loc, r)
  | .receiptsByBlockHeight n todo receipts => ∃ b ∈ stored, b.number = n ∧
      m.blockByHeight n = some b.toBlock ∧
      ∃ seen rest, b.transactions = seen ++ rest ∧
        todo = rest.map (fun e => K.txHash e.tx) ∧ receipts = seen.map Executed.receipt

theorem Reader.Sound.mono {stored stored' : List (ExecutedBlock K)} {m : Maps K} {r : Reader K}
    (hr : r.Sound stored m) (hsub : stored ⊆ stored') : r.Sound stored' m := by
  cases r with
  | finished => trivial
  | blockByHash h height => exact hr.imp fun b => And.imp_left fun hb => hsub hb
  | transactionByHash t loc => exact hr.imp fun b => And.imp_left fun hb => hsub hb
  | receiptsByBlockHeight n todo receipts => exact hr.imp fun b => And.imp_left fun hb => hsub hb

/-- The writer is kept from what a lookup holds. -/
theorem Reader.Sound.write {stored : List (ExecutedBlock K)} {m : Maps K} {r : Reader K}
    (hr : r.Sound stored m) {w : Write K} (hfree : r.holds w = false) :
    r.Sound stored (m.write w) := by
  cases r with
  | finished => trivial
  | blockByHash h height => exact hr
  | transactionByHash t loc => exact hr
  | receiptsByBlockHeight n todo receipts =>
    obtain ⟨b, hb, hnum, hblock, hrest⟩ := hr
    refine ⟨b, hb, hnum, ?_, hrest⟩
    cases w with
    | putBlock height c =>
      have hne : n ≠ height := of_decide_eq_false hfree
      exact (Function.update_of_ne hne _ _).trans hblock
    | removeBlock height =>
      have hne : n ≠ height := of_decide_eq_false hfree
      exact (Function.update_of_ne hne _ _).trans hblock
    | putHash h height => exact hblock
    | removeHash h => exact hblock
    | putTx t loc v => exact hblock
    | removeTx t => exact hblock

theorem Answer.Right.mono {stored stored' : List (ExecutedBlock K)} {a : Answer K}
    (ha : a.Right stored) (hsub : stored ⊆ stored') : a.Right stored' := by
  cases a with
  | block h b => exact ha
  | transaction t tx => exact ha
  | receipts n rs => exact fun l hl => (ha l hl).imp fun b => And.imp_left fun hb => hsub hb

section Access

variable {stored : List (ExecutedBlock K)} {m : Maps K} (hm : m.From (· ∈ stored))
  (hone : ∀ b ∈ stored, ∀ b' ∈ stored, b.number = b'.number → b = b')

include hm hone

/-- The block at the height of a stored block is that block. -/
theorem eq_of_blockByHeight {b : ExecutedBlock K} (hb : b ∈ stored) {c : Block K}
    (hc : m.blockByHeight b.number = some c) : b.toBlock = c := by
  obtain ⟨eb, heb, hnum, rfl⟩ := hm.block _ c hc
  rw [hone eb heb b hb hnum]

/-- The receipt that is found for a transaction of a buffered block is its own. -/
theorem eq_of_getReceiptByTxHash {new : Option (ExecutedBlock K)} (hown : Owned m new)
    {b : ExecutedBlock K} (hb : b ∈ stored) (hnodup : b.txHashes.Nodup)
    (hblock : m.blockByHeight b.number = some b.toBlock) {e : Executed K}
    (he : e ∈ b.transactions) {r : K.Receipt}
    (hr : m.getReceiptByTxHash (K.txHash e.tx) = some r) : e.receipt = r := by
  obtain ⟨v, hv, rfl⟩ := Option.map_eq_some_iff.mp hr
  have hmem : K.txHash e.tx ∈ b.toBlock.txHashes := by
    rw [ExecutedBlock.txHashes_toBlock]
    exact List.mem_map_of_mem he
  have hheight := hown.own _ _ hblock _ hmem v hv
  obtain ⟨eb, heb, hnum, f, hidx, hhash, hreceipt⟩ := hm.tx _ v hv
  obtain rfl := hone eb heb b hb (hnum.trans hheight)
  obtain rfl : f = e :=
    List.inj_on_of_nodup_map hnodup (List.mem_of_getElem? hidx) he hhash
  exact hreceipt

/-- **A further access leaves a lookup sound, and what it returns is right.** -/
theorem access_sound {new : Option (ExecutedBlock K)} (hown : Owned m new)
    (hnodup : ∀ b ∈ stored, b.txHashes.Nodup) {r : Reader K} (hr : r.Sound stored m) :
    (System.access m r).1.Sound stored m ∧
      ∀ a, (System.access m r).2 = some a → a.Right stored := by
  cases r with
  | finished => exact ⟨trivial, fun a ha => by simp [System.access] at ha⟩
  | blockByHash h height =>
    refine ⟨trivial, fun a ha => ?_⟩
    obtain rfl := Option.some.inj ha
    obtain ⟨b, hb, rfl, rfl⟩ := hr
    intro c hc
    rw [← eq_of_blockByHeight hm hone hb hc]
    rfl
  | transactionByHash t loc =>
    refine ⟨trivial, fun a ha => ?_⟩
    obtain rfl := Option.some.inj ha
    obtain ⟨b, hb, r, hnum, e, hidx, rfl, -⟩ := hr
    intro tx htx
    obtain ⟨c, hc, htx⟩ := Option.bind_eq_some_iff.mp htx
    rw [← hnum] at hc
    rw [← eq_of_blockByHeight hm hone hb hc, ExecutedBlock.toBlock, List.getElem?_map, hidx,
      Option.map_some, Option.some.injEq] at htx
    rw [htx]
  | receiptsByBlockHeight n todo receipts =>
    obtain ⟨b, hb, rfl, hblock, seen, rest, hsplit, rfl, rfl⟩ := hr
    cases rest with
    | nil =>
      refine ⟨trivial, fun a ha => ?_⟩
      obtain rfl := Option.some.inj ha
      intro l hl
      obtain rfl := Option.some.inj hl
      rw [List.append_nil] at hsplit
      exact ⟨b, hb, rfl, by rw [ExecutedBlock.receipts, hsplit]⟩
    | cons e rest =>
      rw [List.map_cons, System.access]
      split
      · refine ⟨trivial, fun a ha => ?_⟩
        obtain rfl := Option.some.inj ha
        exact fun l hl => absurd hl.symm (Option.some_ne_none l)
      · next r hr =>
        have he : e ∈ b.transactions := by simp [hsplit]
        have hreceipt := eq_of_getReceiptByTxHash hm hone hown hb (hnodup b hb) hblock he hr
        refine ⟨⟨b, hb, rfl, hblock, seen ++ [e], rest, ?_, rfl, ?_⟩, fun a ha => by simp at ha⟩
        · rw [hsplit, List.append_assoc, List.singleton_append]
        · rw [List.map_append, List.map_singleton, hreceipt]

end Access

/-! ### Runs -/

/-- **What holds between any two steps.** -/
structure Inv (capacity : ℕ) (σ : System K) : Prop where
  /-- The writes that are left lead to the buffer after the events. -/
  done : { σ.buffer with maps := σ.buffer.maps.writes σ.pending } =
    Buffer.run capacity σ.begun
  entries : σ.buffer.maps.From (· ∈ storedBlocks capacity σ.begun)
  /-- They put nothing but the block that is being stored. -/
  insertion : ∃ new, (∀ b, new = some b → b ∈ storedBlocks capacity σ.begun) ∧
    Owned σ.buffer.maps new ∧ ∀ w ∈ σ.pending, w.From fun b => new = some b
  readers : ∀ r ∈ σ.readers, r.Sound (storedBlocks capacity σ.begun) σ.buffer.maps
  answers : ∀ a ∈ σ.answers, a.Right (storedBlocks capacity σ.begun)

theorem Inv.new (capacity : ℕ) : Inv capacity (System.new capacity : System K) where
  done := rfl
  entries := .empty
  insertion := by
    refine ⟨none, fun b hb => by simp at hb, ⟨fun n b hb => ?_, ?_, ?_⟩, ?_⟩
    · simp [System.new, State.new, Maps.empty] at hb
    · simp
    · simp
    · simp [System.new]
  readers := by simp [System.new]
  answers := by simp [System.new]

variable {capacity : ℕ} {σ : System K}

/-- Between insertions the buffer is the one after the events. -/
theorem Inv.buffer_eq (h : Inv capacity σ) (hidle : σ.pending = []) :
    σ.buffer = Buffer.run capacity σ.begun := by
  have hdone := h.done
  rwa [hidle] at hdone

theorem Inv.begin (h : Inv capacity σ) (hidle : σ.pending = []) (e : Event K)
    (hcalm : Calm capacity (σ.begun ++ [e])) :
    Inv capacity { σ with
      buffer := { σ.buffer.insert e with maps := σ.buffer.maps }
      pending := σ.buffer.insertWrites e
      begun := σ.begun ++ [e] } := by
  have hbuffer := h.buffer_eq hidle
  have hstored : storedBlocks capacity (σ.begun ++ [e]) =
      (σ.buffer.stored e).toList ++ storedBlocks capacity σ.begun := by
    rw [storedBlocks_concat, hbuffer]
  have hsub : storedBlocks capacity σ.begun ⊆ storedBlocks capacity (σ.begun ++ [e]) :=
    storedBlocks_subset (List.prefix_append _ _)
  refine ⟨?_, h.entries.mono fun b hb => hsub hb, ⟨σ.buffer.stored e, fun b hb => ?_, ?_, ?_⟩,
    fun r hr => (h.readers r hr).mono hsub, fun a ha => (h.answers a ha).mono hsub⟩
  · rw [run_concat, ← hbuffer]
    rfl
  · rw [hstored]
    exact List.mem_append_left _ (Option.mem_toList.mpr hb)
  · have hpre := hcalm.mono (List.prefix_append σ.begun [e])
    have hagree := agree_run capacity hpre.coherent hpre.apart
    have hapart := hcalm.apart σ.begun e (List.prefix_refl _)
    rw [← hbuffer] at hagree hapart
    exact Owned.of_agree hagree hapart
  · exact fun w hw => σ.buffer.from_insertWrites e hw

theorem Inv.write (h : Inv capacity σ) {w : Write K} {ws : List (Write K)}
    (hpending : σ.pending = w :: ws) (hfree : ∀ r ∈ σ.readers, r.holds w = false) :
    Inv capacity { σ with
      buffer := { σ.buffer with maps := σ.buffer.maps.write w }
      pending := ws } := by
  obtain ⟨new, hnew, hown, hfrom⟩ := h.insertion
  rw [hpending] at hfrom
  obtain ⟨hw, hws⟩ := List.forall_mem_cons.mp hfrom
  refine ⟨?_, h.entries.write (hw.mono hnew), ⟨new, hnew, hown.write hw, hws⟩,
    fun r hr => (h.readers r hr).write (hfree r hr), h.answers⟩
  have hdone := h.done
  rwa [hpending] at hdone

theorem Inv.answer (h : Inv capacity σ) {a : Answer K}
    (ha : a.Right (storedBlocks capacity σ.begun)) : Inv capacity (σ.answer a) :=
  { h with answers := List.forall_mem_cons.mpr ⟨ha, h.answers⟩ }

theorem Inv.addReader (h : Inv capacity σ) {r : Reader K}
    (hr : r.Sound (storedBlocks capacity σ.begun) σ.buffer.maps) :
    Inv capacity { σ with readers := σ.readers ++ [r] } :=
  { h with
    readers := fun r' hr' => by
      rcases List.mem_append.mp hr' with hr' | hr'
      · exact h.readers r' hr'
      · exact List.mem_singleton.mp hr' ▸ hr }

theorem Inv.ask (h : Inv capacity σ) (q : Query) : Inv capacity (σ.ask q) := by
  cases q with
  | blockByHash hash =>
    rw [System.ask]
    split
    · exact h.answer fun c hc => by simp at hc
    · next height hheight => exact h.addReader (h.entries.hash hash height hheight)
  | transactionByHash t =>
    rw [System.ask]
    split
    · exact h.answer fun c hc => by simp at hc
    · next loc r hloc =>
      obtain ⟨b, hb, hhas⟩ := h.entries.tx t (loc, r) hloc
      exact h.addReader ⟨b, hb, r, hhas⟩
  | receiptsByBlockHeight n =>
    rw [System.ask]
    split
    · exact h.answer fun c hc => by simp at hc
    · next c hc =>
      obtain ⟨b, hb, hnum, rfl⟩ := h.entries.block n c hc
      exact h.addReader ⟨b, hb, hnum, hc, [], b.transactions, rfl, b.txHashes_toBlock, rfl⟩

theorem Inv.proceed (h : Inv capacity σ) (hcalm : Calm capacity σ.begun) {i : ℕ} {r : Reader K}
    (hr : σ.readers[i]? = some r) :
    Inv capacity { σ with
      readers := σ.readers.set i (System.access σ.buffer.maps r).1
      answers := (System.access σ.buffer.maps r).2.toList ++ σ.answers } := by
  obtain ⟨new, -, hown, -⟩ := h.insertion
  have hnodup : ∀ b ∈ storedBlocks capacity σ.begun, b.txHashes.Nodup := fun b hb =>
    hcalm.coherent.nodup b (known_of_mem_storedBlocks hb)
  obtain ⟨hsound, hright⟩ := access_sound h.entries hcalm.one hown hnodup
    (h.readers r (List.mem_of_getElem? hr))
  refine { h with readers := fun r' hr' => ?_, answers := fun a ha => ?_ }
  · rcases List.mem_or_eq_of_mem_set hr' with hr' | rfl
    · exact h.readers r' hr'
    · exact hsound
  · rcases List.mem_append.mp ha with ha | ha
    · exact hright a (Option.mem_toList.mp ha)
    · exact h.answers a ha

/-- **One step.** -/
theorem Inv.step (h : Inv capacity σ) {act : Act K} {σ' : System K} (hstep : σ.step act = some σ')
    (hcalm : Calm capacity σ'.begun) : Inv capacity σ' := by
  cases act with
  | begin e =>
    rw [System.step] at hstep
    split at hstep
    · next hidle =>
      obtain rfl := Option.some.inj hstep
      exact h.begin hidle e hcalm
    · simp at hstep
  | write =>
    rw [System.step] at hstep
    split at hstep
    · simp at hstep
    · next w ws hpending =>
      split at hstep
      · simp at hstep
      · next hfree =>
        obtain rfl := Option.some.inj hstep
        refine h.write hpending fun r hr => Bool.eq_false_iff.mpr fun hholds => hfree ?_
        exact List.any_eq_true.mpr ⟨r, hr, hholds⟩
  | ask q =>
    obtain rfl := Option.some.inj hstep
    exact h.ask q
  | proceed i =>
    rw [System.step] at hstep
    split at hstep
    · simp at hstep
    · next r hr =>
      obtain rfl := Option.some.inj hstep
      exact h.proceed hcalm hr

@[simp] theorem begun_ask (σ : System K) (q : Query) : (σ.ask q).begun = σ.begun := by
  cases q with
  | blockByHash h =>
    rw [System.ask]
    split <;> rfl
  | transactionByHash t =>
    rw [System.ask]
    split <;> rfl
  | receiptsByBlockHeight n =>
    rw [System.ask]
    split <;> rfl

/-- A step forgets no event. -/
theorem begun_prefix_step {act : Act K} {σ' : System K} (hstep : σ.step act = some σ') :
    σ.begun <+: σ'.begun := by
  cases act with
  | begin e =>
    rw [System.step] at hstep
    split at hstep
    · obtain rfl := Option.some.inj hstep
      exact List.prefix_append _ _
    · simp at hstep
  | write =>
    rw [System.step] at hstep
    split at hstep
    · simp at hstep
    · split at hstep
      · simp at hstep
      · obtain rfl := Option.some.inj hstep
        exact List.prefix_refl _
  | ask q =>
    obtain rfl := Option.some.inj hstep
    rw [begun_ask]
  | proceed i =>
    rw [System.step] at hstep
    split at hstep
    · simp at hstep
    · obtain rfl := Option.some.inj hstep
      exact List.prefix_refl _

/-- A whole run. -/
theorem Inv.run (acts : List (Act K)) (hrun : run capacity acts = some σ)
    (hcalm : Calm capacity σ.begun) : Inv capacity σ := by
  induction acts using List.reverseRecOn generalizing σ with
  | nil =>
    obtain rfl := Option.some.inj hrun
    exact .new capacity
  | append_singleton acts act ih =>
    rw [Race.run, List.foldlM_append] at hrun
    obtain ⟨σ₀, hbefore, hlast⟩ := Option.bind_eq_some_iff.mp hrun
    have hstep : σ₀.step act = some σ := by simpa using hlast
    exact (ih hbefore (hcalm.mono (begun_prefix_step hstep))).step hstep hcalm

/-- **The lookups are right in every interleaving** with insertions of calm events: no two
different blocks are stored at one height, and no stored block shares a transaction with a block
that is buffered at another height. -/
theorem lookups_right (capacity : ℕ) (acts : List (Act K)) (σ : System K)
    (hrun : run capacity acts = some σ) (hcalm : Calm capacity σ.begun) :
    ∀ a ∈ σ.answers, a.Right (storedBlocks capacity σ.begun) :=
  (Inv.run acts hrun hcalm).answers

/-- A block is looked for while it is stored. -/
def calmActs : List (Act smallKinds) :=
  [.begin (.block .proposed (smallBlock 1 1 [7])), .write, .ask (.receiptsByBlockHeight 1),
    .write, .write, .ask (.transactionByHash (word 7)), .proceed 0, .proceed 0, .proceed 1]

/-- The receipts and the transaction that are found are the block's. -/
theorem lookups_right_calm :
    ∃ σ, run 2 calmActs = some σ ∧ σ.pending.length = 0 ∧ σ.answers.length = 2 ∧
      ∀ a ∈ σ.answers, a.Right (storedBlocks 2 σ.begun) := by
  obtain ⟨σ, hrun, hanswers, hpending, hbegun⟩ : ∃ σ, run 2 calmActs = some σ ∧
      σ.answers.length = 2 ∧ σ.pending.length = 0 ∧
      σ.begun = [.block .proposed (smallBlock 1 1 [7])] :=
    ⟨_, rfl, rfl, rfl, rfl⟩
  have hknown : ∀ b, Known [.block .proposed (smallBlock 1 1 [7])] b → b = smallBlock 1 1 [7] := by
    rintro b ⟨e, he, hb⟩
    rw [List.mem_singleton.mp he] at hb
    exact (Option.some.inj hb).symm
  refine ⟨σ, hrun, hpending, hanswers, lookups_right 2 calmActs σ hrun ?_⟩
  rw [hbegun]
  refine ⟨⟨fun b b' hb hb' _ => ?_, fun b hb => ?_⟩, apart_of_disjoint 2 fun b b' hb hb' hne => ?_,
    fun b hb b' hb' _ => ?_⟩
  · rw [hknown b hb, hknown b' hb']
  · rw [hknown b hb]
    decide
  · rw [hknown b hb, hknown b' hb'] at hne
    exact absurd rfl hne
  · rw [hknown b (known_of_mem_storedBlocks hb), hknown b' (known_of_mem_storedBlocks hb')]

/-- A block is replaced, and looked for after the other one is put. -/
def windowActs : List (Act smallKinds) :=
  [.begin (.block .proposed (smallBlock 1 1 [])), .write, .write,
    .begin (.block .proposed (smallBlock 1 2 [])), .write,
    .ask (.blockByHash (word 1)), .proceed 0]

/-- The hash of the old block leads to the new one. -/
theorem window_leads_to_other_block :
    ∃ σ, run 5 windowActs = some σ ∧ Coherent σ.begun ∧
      ∃ a ∈ σ.answers, ¬a.Right (storedBlocks 5 σ.begun) := by
  obtain ⟨σ, hrun, hanswers, hbegun⟩ : ∃ σ, run 5 windowActs = some σ ∧
      σ.answers = [.block (word 1) (some (smallBlock 1 2 []).toBlock)] ∧
      σ.begun = [.block .proposed (smallBlock 1 1 []), .block .proposed (smallBlock 1 2 [])] :=
    ⟨_, rfl, rfl, rfl⟩
  refine ⟨σ, hrun, ?_, _, hanswers ▸ List.mem_singleton_self _, fun hcon => ?_⟩
  · have hknown : ∀ b, Known σ.begun b → b = smallBlock 1 1 [] ∨ b = smallBlock 1 2 [] := by
      rintro b ⟨e, he, hb⟩
      rw [hbegun, List.mem_cons, List.mem_singleton] at he
      rcases he with rfl | rfl
      · exact .inl (Option.some.inj hb).symm
      · exact .inr (Option.some.inj hb).symm
    refine ⟨fun b b' hb hb' heq => ?_, fun b hb => ?_⟩
    · rcases hknown b hb with rfl | rfl <;> rcases hknown b' hb' with rfl | rfl
      · rfl
      · exact absurd heq (by decide)
      · exact absurd heq (by decide)
      · rfl
    · rcases hknown b hb with rfl | rfl <;> exact .nil
  · exact absurd (hcon _ rfl) (by decide)

end Race

end Buffer

end Rpc

end MonadServices
