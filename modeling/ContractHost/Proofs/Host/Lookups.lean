import ContractHost.Host.Invoke
import ContractHost.Proofs.Host.Operands
import ContractHost.Proofs.State.Answering
import ContractHost.Proofs.Value.Integers

/-!
# Blocks by height and by hash

An operand of up to five bytes is a height, however the number is spelled, and stands for the hash
that the state has for it. A block and its header are looked up alike, and a header tells the same
alone or in its block.
-/

namespace ContractHost

def HostFunction.blockLookups : List HostFunction := [.blockchainGetHeader, .blockchainGetBlock]

def HostFunction.headerAccessors : List HostFunction :=
  [.headerGetIndex, .headerGetHash, .headerGetPrevHash, .headerGetTimestamp]

/-- An operand of few bytes that are read as the height. -/
def StackValue.DenotesHeight (operand : StackValue) (height : UInt32) : Prop :=
  ∃ bytes, operand.bytes? = some bytes ∧ bytes.length ≤ Call.maxHeightLength ∧
    TwosComplement.read bytes = height.toNat

namespace StackValue

theorem denotesHeight_integer (height : UInt32) :
    (integer height.toNat).DenotesHeight height := by
  refine ⟨_, rfl, ?_, TwosComplement.read_write _⟩
  -- some five bytes are read as the height, and those that are written are no more
  have hlt : height.toNat < UInt32.size := height.toNat_lt
  have hmod : height.toNat % byteSpan 5 = height.toNat :=
    Nat.mod_eq_of_lt (Nat.lt_trans hlt (by decide))
  have hread : TwosComplement.read (littleEndian 5 height.toNat) = height.toNat := by
    have hspan : byteSpan 5 = 256 * UInt32.size := by decide
    rw [TwosComplement.read, TwosComplement.joinHalves_eq, ofLittleEndian_littleEndian, hmod,
      littleEndian_length, hspan]
    exact if_pos (by omega)
  have hle := TwosComplement.length_write_read_le (littleEndian 5 height.toNat)
  rwa [hread, littleEndian_length] at hle

theorem denotesHeight_boolean (flag : Bool) :
    (boolean flag).DenotesHeight (if flag then 1 else 0) := by
  cases flag with
  | false => exact ⟨[], rfl, by decide, by decide⟩
  | true => exact ⟨[1], rfl, by decide, by decide⟩

theorem DenotesHeight.signExtend {bytes : Bytes} {height : UInt32}
    (h : (byteString bytes).DenotesHeight height) {count : Nat}
    (hlength : bytes.length + count ≤ Call.maxHeightLength) :
    (byteString (bytes ++ List.replicate count (TwosComplement.signByte bytes))).DenotesHeight
      height := by
  obtain ⟨_, hbytes, -, hread⟩ := h
  cases hbytes
  refine ⟨_, rfl, ?_, ?_⟩
  · rwa [List.length_append, List.length_replicate]
  · rw [TwosComplement.read_signExtend, hread]

end StackValue

/-- Two sessions whose snapshots give the same answers, and that are the same otherwise. -/
structure Session.SameAnswers {σ : Type} (steady : σ → Prop)
    (stored : StateKey → Except StoreError (Option StoredValue)) (s t : Session σ) : Prop where
  workspace : s.workspace.SameAnswers steady stored t.workspace
  otherwise : t = s.onWorkspace t.workspace

namespace Call

section

variable {σ : Type} [StateReader σ]

/-- What a function does that looks up by height or hash. -/
structure LooksUpBlocks (call : Call σ Unit) : Prop where
  /-- A height goes to the hash that the state has for it. -/
  by_height : ∀ {s : Session σ} {operand : StackValue} {height : UInt32} {hash : BlockHash}
    {w : Workspace σ}, operand.DenotesHeight height →
    (Snapshot.get (.blockHashAtHeight height)).run s.workspace =
      (.ok (some (.blockHash hash)), w) →
    call.run (s.pushed operand) = call.run ((s.onWorkspace w).pushed (.byteString hash.bytes))
  /-- Over a store that stays with its answers, a height and its hash have the same result and
  leave sessions that are the same but for the values kept from reading. -/
  as_by_hash : ∀ {steady : σ → Prop} {stored : StateKey → Except StoreError (Option StoredValue)}
    {s : Session σ} {operand : StackValue} {height : UInt32} {hash : BlockHash},
    Answers steady stored → s.workspace.Settled steady stored → operand.DenotesHeight height →
    s.snapshot.cache.answer stored (.blockHashAtHeight height) = .ok (some (.blockHash hash)) →
    MatchesAt (Session.SameAnswers steady stored) (s.pushed (.byteString hash.bytes))
      (s.pushed operand) call call
  no_entry : ∀ {s : Session σ} {operand : StackValue} {height : UInt32} {w : Workspace σ},
    operand.DenotesHeight height →
    (Snapshot.get (.blockHashAtHeight height)).run s.workspace = (.ok none, w) →
    call.run (s.pushed operand) = (.ok (), (s.onWorkspace w).pushed (.byteString []))
  no_height : ∀ {s : Session σ} {operand : StackValue} {bytes : Bytes},
    operand.bytes? = some bytes → bytes.length ≤ maxHeightLength →
    (TwosComplement.read bytes < 0 ∨ (UInt32.size : Int) ≤ TwosComplement.read bytes) →
    call.run (s.pushed operand) = (.error .invalidHeight, s)
  no_hash : ∀ {s : Session σ} {operand : StackValue} {bytes : Bytes},
    operand.bytes? = some bytes → maxHeightLength < bytes.length → bytes.length ≠ 32 →
    call.run (s.pushed operand) = (.error (.invalidOperandLength .heightOrHash bytes.length), s)

variable {s : Session σ} {bytes : Bytes} {height : UInt32}

theorem run_blockHashOf_height (hlength : bytes.length ≤ maxHeightLength)
    (hread : TwosComplement.read bytes = height.toNat) :
    (blockHashOf bytes : Call σ _).run s =
      (onSnapshot (Snapshot.readBlockHashAtHeight height)).run s := by
  have hlt : height.toNat < UInt32.size := height.toNat_lt
  have hrange : 0 ≤ TwosComplement.read bytes ∧ TwosComplement.read bytes < UInt32.size := by omega
  have hheight : UInt32.ofNat (TwosComplement.read bytes).toNat = height := by
    rw [hread, Int.toNat_natCast, UInt32.ofNat_toNat]
  rw [blockHashOf, if_pos hlength]
  dsimp only
  rw [if_pos hrange, hheight]

theorem run_blockHashOf_hash (hash : BlockHash) :
    (blockHashOf hash.bytes : Call σ _).run s = (.ok (some hash), s) := by
  have hlength : ¬hash.bytes.length ≤ maxHeightLength := by
    have hbytes : hash.bytes.length = 32 := hash.digest.raw.length_eq
    rw [hbytes]
    decide
  have hfixed : FixedBytes.ofBytes? 32 hash.bytes = some hash.digest.raw :=
    FixedBytes.ofBytes?_bytes _
  rw [blockHashOf, if_neg hlength, fixedOperand, hfixed]
  rfl

theorem run_blockHashOf_invalidHeight (hlength : bytes.length ≤ maxHeightLength)
    (hread : TwosComplement.read bytes < 0 ∨ (UInt32.size : Int) ≤ TwosComplement.read bytes) :
    (blockHashOf bytes : Call σ _).run s = (.error .invalidHeight, s) := by
  have hrange : ¬(0 ≤ TwosComplement.read bytes ∧ TwosComplement.read bytes < UInt32.size) := by
    omega
  rw [blockHashOf, if_pos hlength]
  dsimp only
  rw [if_neg hrange]
  rfl

theorem run_blockHashOf_invalidLength (hlength : maxHeightLength < bytes.length)
    (hhash : bytes.length ≠ 32) :
    (blockHashOf bytes : Call σ _).run s =
      (.error (.invalidOperandLength .heightOrHash bytes.length), s) := by
  have hfixed : FixedBytes.ofBytes? 32 bytes = none := dif_neg hhash
  rw [blockHashOf, if_neg (Nat.not_le.mpr hlength), fixedOperand, hfixed]
  rfl

/-- The lookup that follows once an operand has given a hash, or has not. -/
def pushFor (lookUp : BlockHash → SnapshotM σ (Option HostObject)) :
    Option BlockHash → Call σ Unit
  | none => pushFound none
  | some hash => do pushFound (← onSnapshot (lookUp hash))

theorem getByBlockHash_eq (lookUp : BlockHash → SnapshotM σ (Option HostObject)) :
    getByBlockHash lookUp = popBytes >>= fun bytes => blockHashOf bytes >>= pushFor lookUp := rfl

theorem run_getByBlockHash {lookUp : BlockHash → SnapshotM σ (Option HostObject)}
    {operand : StackValue} (hbytes : operand.bytes? = some bytes) :
    (getByBlockHash lookUp).run (s.pushed operand) =
      (blockHashOf bytes >>= pushFor lookUp).run s := by
  rw [getByBlockHash_eq, run_bind_ok (run_popBytes_pushed hbytes)]

omit [StateReader σ] in
theorem run_pushFor (lookUp : BlockHash → SnapshotM σ (Option HostObject)) (hash : BlockHash)
    (s : Session σ) :
    (pushFor lookUp (some hash)).run s =
      match (lookUp hash).run s.workspace with
      | (.ok found, w) => (.ok (), (s.onWorkspace w).given found)
      | (.error e, w) => (.error (.storage e), s.onWorkspace w) := by
  rw [pushFor, run_bind, run_onSnapshot]
  rcases (lookUp hash).run s.workspace with ⟨e | found, w⟩
  · rfl
  · exact run_pushFound found _

omit [StateReader σ] in
theorem pushFor_matches {steady : σ → Prop}
    {stored : StateKey → Except StoreError (Option StoredValue)}
    {lookUp : BlockHash → SnapshotM σ (Option HostObject)} {hash : BlockHash}
    (h : Matches (Workspace.SameAnswers steady stored) (lookUp hash) (lookUp hash)) :
    Matches (Session.SameAnswers steady stored) (pushFor lookUp (some hash))
      (pushFor lookUp (some hash)) := by
  rintro s t ⟨hworkspace, hotherwise⟩
  obtain ⟨hresult, hafter⟩ := h s.workspace t.workspace hworkspace
  rw [MatchesAt, run_pushFor, run_pushFor]
  cases hleft : (lookUp hash).run s.workspace with
  | mk left w =>
    cases hright : (lookUp hash).run t.workspace with
    | mk right v =>
      rw [hleft, hright] at hresult hafter
      cases hresult
      have hsame : t.onWorkspace v = (s.onWorkspace w).onWorkspace v := by
        rw [hotherwise]
        rfl
      cases left with
      | error e => exact ⟨rfl, hafter, hsame⟩
      | ok found =>
        refine ⟨rfl, ?_, ?_⟩ <;> dsimp only <;> rw [hsame]
        · cases found <;> exact hafter
        · cases found <;> rfl

theorem looksUpBlocks_getByBlockHash {lookUp : BlockHash → SnapshotM σ (Option HostObject)}
    (hmatches : ∀ {steady : σ → Prop}
      {stored : StateKey → Except StoreError (Option StoredValue)}, Answers steady stored →
      ∀ hash, Matches (Workspace.SameAnswers steady stored) (lookUp hash) (lookUp hash)) :
    LooksUpBlocks (getByBlockHash lookUp) := by
  have hby_hash : ∀ (s : Session σ) (hash : BlockHash),
      (getByBlockHash lookUp).run (s.pushed (.byteString hash.bytes)) =
        (pushFor lookUp (some hash)).run s := by
    intro s hash
    rw [run_getByBlockHash rfl, run_bind_ok (run_blockHashOf_hash _)]
  have hby_height : ∀ {s : Session σ} {operand : StackValue} {height : UInt32} {hash : BlockHash}
      {w : Workspace σ}, operand.DenotesHeight height →
      (Snapshot.get (.blockHashAtHeight height)).run s.workspace =
        (.ok (some (.blockHash hash)), w) →
      (getByBlockHash lookUp).run (s.pushed operand) =
        (pushFor lookUp (some hash)).run (s.onWorkspace w) := by
    rintro s operand height hash w ⟨bytes, hbytes, hlength, hread⟩ hget
    have hfound : (Snapshot.readBlockHashAtHeight height).run s.workspace = (.ok (some hash), w) :=
      Snapshot.run_getAs_found hget rfl
    rw [run_getByBlockHash hbytes, run_bind, run_blockHashOf_height hlength hread, run_onSnapshot,
      hfound]
    rfl
  constructor
  case by_height =>
    intro s operand height hash w hoperand hget
    rw [hby_height hoperand hget, hby_hash]
  case as_by_hash =>
    intro steady stored s operand height hash hstore hs hoperand hanswer
    obtain ⟨w, hrun, hsame⟩ := Snapshot.exists_run_get hstore hs hanswer
    rw [MatchesAt, hby_hash, hby_height hoperand hrun]
    exact pushFor_matches (hmatches hstore hash) s (s.onWorkspace w) ⟨hsame, rfl⟩
  case no_entry =>
    rintro s operand height w ⟨bytes, hbytes, hlength, hread⟩ hget
    have hfound : (Snapshot.readBlockHashAtHeight height).run s.workspace = (.ok none, w) :=
      Snapshot.run_getAs_missing _ hget
    rw [run_getByBlockHash hbytes, run_bind, run_blockHashOf_height hlength hread, run_onSnapshot,
      hfound]
    rfl
  case no_height =>
    intro s operand bytes hbytes hlength hread
    rw [run_getByBlockHash hbytes, run_bind_error (run_blockHashOf_invalidHeight hlength hread)]
  case no_hash =>
    intro s operand bytes hbytes hlength hhash
    rw [run_getByBlockHash hbytes, run_bind_error (run_blockHashOf_invalidLength hlength hhash)]

theorem looksUpBlocks_getHeader : LooksUpBlocks (getHeader : Call σ Unit) :=
  looksUpBlocks_getByBlockHash fun hstore _ =>
    (Snapshot.matches_getAs (Snapshot.get_answersAlike hstore _) _).bind fun _ => .pure _

theorem looksUpBlocks_getBlock : LooksUpBlocks (getBlock : Call σ Unit) :=
  looksUpBlocks_getByBlockHash fun hstore _ =>
    (Snapshot.matches_readBlock (Snapshot.get_answersAlike hstore _)).bind fun _ => .pure _

theorem run_getByBlockHash_of_found {lookUp other : BlockHash → SnapshotM σ (Option HostObject)}
    {found instead : HostObject}
    (hother : ∀ hash w w', (lookUp hash).run w = (.ok (some found), w') →
      (other hash).run w = (.ok (some instead), w'))
    {s s' : Session σ} {operand : StackValue} {id : Nat}
    (h : (getByBlockHash lookUp).run (s.pushed operand) =
      (.ok (), s'.pushed (.handle ⟨id, found⟩))) :
    (getByBlockHash other).run (s.pushed operand) =
      (.ok (), s'.pushed (.handle ⟨id, instead⟩)) := by
  rw [getByBlockHash_eq] at h ⊢
  obtain ⟨bytes, popped, hpop, hrest⟩ := exists_of_run_bind h
  obtain ⟨hash, s₁, hhash, hpush⟩ := exists_of_run_bind hrest
  rw [run_bind_ok hpop, run_bind_ok hhash]
  cases hash with
  | none =>
    obtain ⟨-, hvalue⟩ := Session.pushed_inj (Prod.mk.inj hpush).2
    cases hvalue
  | some hash =>
    rw [run_pushFor] at hpush ⊢
    cases hlookUp : (lookUp hash).run s₁.workspace with
    | mk result w =>
      rw [hlookUp] at hpush
      rcases result with e | _ | object
      · cases hpush
      · obtain ⟨-, hvalue⟩ := Session.pushed_inj (Prod.mk.inj hpush).2
        cases hvalue
      · obtain ⟨rfl, hvalue⟩ := Session.pushed_inj (Prod.mk.inj hpush).2
        cases hvalue
        rw [hother hash s₁.workspace w hlookUp]
        rfl

theorem run_readHeader_of_readBlock {hash : BlockHash} {block : Block} {w w' : Workspace σ}
    (h : (Snapshot.readBlock hash).run w = (.ok (some block), w')) :
    (Snapshot.readHeader hash).run w = (.ok (some block.header), w') := by
  obtain ⟨found, middle, hget, hfound⟩ := exists_of_run_bind h
  split at hfound
  next =>
    cases hfound
    exact Snapshot.run_getAs_found hget rfl
  all_goals cases hfound

theorem getHeader_of_getBlock {s s' : Session σ} {operand : StackValue} {id : Nat} {block : Block}
    (h : getBlock.run (s.pushed operand) = (.ok (), s'.pushed (.handle ⟨id, .block block⟩))) :
    getHeader.run (s.pushed operand) =
      (.ok (), s'.pushed (.handle ⟨id, .header block.header⟩)) := by
  refine run_getByBlockHash_of_found (fun hash w w' hlookUp => ?_) h
  obtain ⟨found, middle, hblock, hobject⟩ := exists_of_run_bind hlookUp
  cases found with
  | none => cases hobject
  | some found =>
    cases hobject
    rw [run_bind_ok (run_readHeader_of_readBlock hblock)]
    rfl

omit [StateReader σ] in
theorem run_headerField (value : Header → StackValue) {s : Session σ} {handle : Handle}
    {header : Header} (h : handle.object.header? = some header) :
    (do push (value (← popHeader)) : Call σ Unit).run (s.pushed (.handle handle)) =
      (.ok (), s.pushed (value header)) := by
  rw [run_bind, popHeader, run_bind, run_popHandle_pushed]
  dsimp only
  rw [expectObject, h]
  rfl

theorem run_headerAccessor {f : HostFunction} (hf : f ∈ HostFunction.headerAccessors)
    (header : Header) : ∃ value, ∀ (s : Session σ) (handle : Handle),
      handle.object.header? = some header →
      (perform f).run (s.pushed (.handle handle)) = (.ok (), s.pushed value) := by
  simp only [HostFunction.headerAccessors, List.mem_cons, List.not_mem_nil, or_false] at hf
  rcases hf with rfl | rfl | rfl | rfl
  · exact ⟨_, fun _ _ h => run_headerField (fun header => .integer header.index.toNat) h⟩
  · exact ⟨_, fun _ _ h => run_headerField (fun header => .byteString header.hash.bytes) h⟩
  · exact ⟨_, fun _ _ h => run_headerField (fun header => .byteString header.prevHash.bytes) h⟩
  · exact ⟨_, fun _ _ h => run_headerField (fun header => .integer header.timestamp.toNat) h⟩

variable (σ) in
/-- A block or header is looked up by height as by the hash that the state has for the height, in
whichever way the operand spells the number; an operand that is neither a height nor a hash fails.
Where a block is pushed its header would have been, in the same session, and what a function tells
of a header is the same for a handle to the header and one to its block. -/
theorem block_lookups_agree :
    (∀ f ∈ HostFunction.blockLookups, LooksUpBlocks (perform f : Call σ Unit)) ∧
    (∀ (s s' : Session σ) (operand : StackValue) (id : Nat) (block : Block),
      (perform .blockchainGetBlock).run (s.pushed operand) =
        (.ok (), s'.pushed (.handle ⟨id, .block block⟩)) →
      (perform .blockchainGetHeader).run (s.pushed operand) =
        (.ok (), s'.pushed (.handle ⟨id, .header block.header⟩))) ∧
    (∀ f ∈ HostFunction.headerAccessors, ∀ header, ∃ value, ∀ (s : Session σ) (handle : Handle),
      handle.object.header? = some header →
      (perform f).run (s.pushed (.handle handle)) = (.ok (), s.pushed value)) ∧
    (∀ height, (StackValue.integer height.toNat).DenotesHeight height) ∧
    (∀ flag, (StackValue.boolean flag).DenotesHeight (if flag then 1 else 0)) ∧
    (∀ bytes height count, (StackValue.byteString bytes).DenotesHeight height →
      bytes.length + count ≤ maxHeightLength →
      (StackValue.byteString (bytes ++
        List.replicate count (TwosComplement.signByte bytes))).DenotesHeight height) := by
  refine ⟨?_, fun s s' operand id block h => getHeader_of_getBlock h,
    fun f hf header => run_headerAccessor hf header, StackValue.denotesHeight_integer,
    StackValue.denotesHeight_boolean, fun bytes height count h => h.signExtend⟩
  intro f hf
  simp only [HostFunction.blockLookups, List.mem_cons, List.not_mem_nil, or_false] at hf
  rcases hf with rfl | rfl
  · exact looksUpBlocks_getHeader
  · exact looksUpBlocks_getBlock

end

end Call

/-- An execution that has noted a block at height 300 and has not committed it. -/
def Session.noted : Session MemoryStore where
  service := .new .application default .session
  snapshot := { Snapshot.new with cache :=
    { Snapshot.newCache with writes :=
        [(.blockHashAtHeight 300, .blockHash default), (.block default, .block default)] } }
  store := .empty
  machine := ⟨[], default, none⟩
  heap := .empty
  delivered := []
  released := []

/-- The height 300 in four bytes finds the block that its hash finds, and the number finds its
header. -/
theorem Call.block_lookups_agree_noted :
    (perform .blockchainGetBlock).run (Session.noted.pushed (.byteString [0x2C, 1, 0, 0])) =
      (perform .blockchainGetBlock).run
        (Session.noted.pushed (.byteString (default : BlockHash).bytes)) ∧
    (perform .blockchainGetHeader).run (Session.noted.pushed (.integer 300)) =
      (.ok (), Session.pushed { Session.noted with heap := ⟨#[], #[], 1⟩ }
        (.handle ⟨0, .header (default : Block).header⟩)) ∧
    MatchesAt (Session.SameAnswers (· = .empty) fun key => .ok (MemoryStore.empty.get? key))
      (Session.noted.pushed (.byteString (default : BlockHash).bytes))
      (Session.noted.pushed (.integer 300)) (perform .blockchainGetBlock)
      (perform .blockchainGetBlock) := by
  obtain ⟨hlookups, hheader, -, hinteger, -, hextend⟩ := block_lookups_agree MemoryStore
  have hlonger : (StackValue.byteString [0x2C, 1, 0, 0]).DenotesHeight 300 :=
    hextend [0x2C, 1] 300 2 ⟨_, rfl, by decide, by decide⟩ (by decide)
  have hentry : (Snapshot.get (.blockHashAtHeight 300)).run Session.noted.workspace =
      (.ok (some (.blockHash default)), Session.noted.workspace) := rfl
  have hblock : (getBlock.run (Session.noted.pushed (.byteString (default : BlockHash).bytes))) =
      (.ok (), Session.pushed { Session.noted with heap := ⟨#[], #[], 1⟩ }
        (.handle ⟨0, .block default⟩)) := by
    rw [getBlock, run_getByBlockHash rfl, run_bind_ok (run_blockHashOf_hash _)]
    rfl
  have hnumber : (StackValue.integer 300).DenotesHeight 300 := hinteger 300
  have hlookup := hlookups .blockchainGetBlock (by decide)
  have hbytes := hlookup.by_height hlonger hentry
  have hfound := (hlookup.by_height hnumber hentry).trans hblock
  have hkept : Session.noted.workspace.Settled (· = .empty)
      fun key => .ok (MemoryStore.empty.get? key) := by
    refine ⟨rfl, fun e he => ?_⟩
    cases he
  exact ⟨hbytes, hheader _ _ _ _ _ hfound,
    hlookup.as_by_hash MemoryStore.answers_empty hkept hnumber rfl⟩

end ContractHost
