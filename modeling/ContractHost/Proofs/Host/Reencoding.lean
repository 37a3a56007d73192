import ContractHost.Proofs.Host.StorageMap
import ContractHost.Proofs.Value.NormalForm

/-!
# Payloads that go in and out

Contract code that has the host read a payload and write the value again gets a payload back that
is no longer, if the first one was within the size limit.
-/

namespace ContractHost

namespace Call

variable {σ : Type} {s s' : Session σ}

theorem run_serialize {value : StackValue} {below : List StackValue} {bytes : Bytes}
    (hstack : s.machine.stack = value :: below)
    (hencode : value.encode s.heap s.service.config.limits = .ok bytes) :
    serialize.run s =
      (.ok (), { s with machine := { s.machine with stack := .byteString bytes :: below } }) := by
  rw [serialize, run_bind_ok (run_pop hstack), run_bind_ok (run_get _), run_bind_ok (run_config _)]
  dsimp only
  rw [hencode]
  rfl

theorem run_deserialize {operand value : StackValue} {below : List StackValue} {payload : Bytes}
    {later : Heap} (hstack : s.machine.stack = operand :: below)
    (hbytes : operand.bytes? = some payload)
    (hdecode : StackValue.decode s.service.config.limits payload s.heap = .ok (value, later)) :
    deserialize.run s = (.ok (), { s with
      heap := later, machine := { s.machine with stack := value :: below } }) := by
  rw [deserialize, run_bind_ok (run_popBytes hstack hbytes), run_bind_ok (run_config _),
    run_bind_ok (run_get _)]
  dsimp only
  rw [hdecode]
  rfl

theorem deserialize_ok {operand : StackValue} {below : List StackValue} {payload : Bytes}
    (hstack : s.machine.stack = operand :: below) (hbytes : operand.bytes? = some payload)
    (h : deserialize.run s = (.ok (), s')) :
    ∃ value later, StackValue.decode s.service.config.limits payload s.heap = .ok (value, later) ∧
      s' = { s with heap := later, machine := { s.machine with stack := value :: below } } := by
  cases hdecode : StackValue.decode s.service.config.limits payload s.heap with
  | ok result =>
    rw [run_deserialize hstack hbytes hdecode] at h
    cases h
    exact ⟨result.1, result.2, rfl, rfl⟩
  | error e =>
    rw [deserialize, run_bind_ok (run_popBytes hstack hbytes), run_bind_ok (run_config _),
      run_bind_ok (run_get _)] at h
    dsimp only at h
    rw [hdecode] at h
    cases h

end Call

theorem EngineConfig.maxArraySize_limits_le (config : EngineConfig) :
    config.limits.maxArraySize.toNat ≤ 0xFFFFFFFF := by
  have hlt := config.maxArraySize.toNat_lt
  rw [limits, UInt32.toNat_toUInt64]
  omega

/-- Whatever was decoded, from bytes of any length, has a normal form, which is what it is encoded
as. So contract code that has the host read a payload within the size limit can have it write the
value again, at once or after other containers came into the heap, and gets no longer a payload. -/
theorem Call.payload_normal_form {σ : Type} [StateReader σ] :
    (∀ (reading : ValueLimits) (heap later : Heap) (bytes : Bytes) (value : StackValue),
      reading.maxArraySize.toNat ≤ 0xFFFFFFFF →
      StackValue.decode reading bytes heap = .ok (value, later) →
      ∃ front canonical, front <+: bytes ∧
        DerivesValue reading.maxArraySize.toNat heap front value later ∧
        (∀ rest, StackValue.decode reading (front ++ rest) heap = .ok (value, later)) ∧
        StackValue.NormalForm reading value later front canonical) ∧
    ∀ (s s' : Session σ) (operand : StackValue) (below : List StackValue) (payload : Bytes),
      s.machine.stack = operand :: below → operand.bytes? = some payload →
      payload.length ≤ s.service.config.maxItemSize.toNat →
      (perform .runtimeDeserialize).run s = (.ok (), s') →
      ∃ value, s'.machine.stack = value :: below ∧
        ∀ (t : Session σ) (others : List StackValue), t.service.config = s.service.config →
          s'.heap.Extends t.heap → t.machine.stack = value :: others →
          ∃ bytes t', (perform .runtimeSerialize).run t = (.ok (), t') ∧
            t'.machine.stack = .byteString bytes :: others ∧ bytes.length ≤ payload.length := by
  constructor
  · intro reading heap later bytes value hreading h
    exact StackValue.exists_normalForm hreading h
  · intro s s' operand below payload hstack hbytes hsize hrun
    obtain ⟨value, later, hdecode, rfl⟩ := deserialize_ok hstack hbytes hrun
    refine ⟨value, rfl, fun t others hconfig hext htop => ?_⟩
    obtain ⟨front, canonical, hprefix, -, -, hnormal⟩ :=
      StackValue.exists_normalForm s.service.config.maxArraySize_limits_le hdecode
    have hlimit : front.length ≤ t.service.config.limits.maxItemSize.toNat := by
      rw [hconfig, EngineConfig.limits, UInt32.toNat_toUInt64]
      exact Nat.le_trans hprefix.length_le hsize
    have hrun := run_serialize htop (hnormal.encode t.heap hext _ hlimit)
    exact ⟨canonical, _, hrun, rfl, Nat.le_trans hnormal.length_le hprefix.length_le⟩

/-- A map of true to an empty array, with its count in three bytes, a flag of seven and a byte
behind it. -/
def paddedMap : Bytes := [0x82, 0xFD, 1, 0, 0x01, 7, 0x80, 0, 0xAA]

theorem decode_paddedMap : StackValue.decode EngineConfig.default.limits paddedMap .empty =
    .ok (.map 0, ⟨#[[]], #[⟨[(.boolean true, .array 0)]⟩], 0⟩) := by
  have hone : VarInt.Form (ofLittleEndian [1, 0]) [0xFD, 1, 0] := .marked (by decide)
  have hmap : (ValueToken.container .map 1).Form 1024 [0x82, 0xFD, 1, 0] :=
    .container .map hone (by decide)
  have hflag : (ValueToken.boolean true).Form 1024 [0x01, 7] := .boolean 7
  have harray : (ValueToken.container .array 0).Form 1024 [0x80, 0] :=
    .container .array (.one 0 (by decide)) (by decide)
  have hderives : DerivesValue EngineConfig.default.limits.maxArraySize.toNat .empty
      [0x82, 0xFD, 1, 0, 0x01, 7, 0x80, 0] (.map 0) ⟨#[[]], #[⟨[(.boolean true, .array 0)]⟩], 0⟩ :=
    ⟨_, rfl, .cons hmap rfl (.cons hflag rfl .nil (.cons harray rfl .nil .nil)) .nil, rfl⟩
  have hroom : Decoder.Room EngineConfig.default.limits.maxArraySize.toNat 1
      ([0x82, 0xFD, 1, 0, 0x01, 7, 0x80, 0] ++ [0xAA]) :=
    Decoder.room_of_length_lt (by decide) (by decide)
  apply (StackValue.decode_derived hderives hroom).1
  intro ref _
  cases ref with
  | zero => exact List.pairwise_singleton _ _
  | succ ref => exact .nil

theorem Call.payload_normal_form_paddedMap :
    let s := { Session.storing .application with
      machine := ⟨[.byteString paddedMap], default, none⟩ }
    (∃ front canonical, front <+: paddedMap ∧ StackValue.NormalForm s.service.config.limits (.map 0)
      ⟨#[[]], #[⟨[(.boolean true, .array 0)]⟩], 0⟩ front canonical) ∧
    ∃ s' t' bytes, (perform .runtimeDeserialize).run s = (.ok (), s') ∧
      (perform .runtimeSerialize).run s' = (.ok (), t') ∧
      t'.machine.stack = [.byteString bytes] ∧ bytes.length ≤ 9 := by
  intro s
  have hpayload := payload_normal_form (σ := MemoryStore)
  obtain ⟨front, canonical, hprefix, -, -, hnormal⟩ := hpayload.1 EngineConfig.default.limits .empty
    _ paddedMap (.map 0) (by decide) decode_paddedMap
  refine ⟨⟨front, canonical, hprefix, hnormal⟩, ?_⟩
  obtain ⟨s', hread, hservice⟩ : ∃ s', deserialize.run s = (.ok (), s') ∧
      s'.service = s.service := ⟨_, run_deserialize rfl rfl decode_paddedMap, rfl⟩
  obtain ⟨value, hvalue, hany⟩ := hpayload.2 s s' _ [] paddedMap rfl rfl (by decide) hread
  obtain ⟨bytes, t', hwrite, hstack, hlength⟩ :=
    hany s' [] (by rw [hservice]) (.refl _) hvalue
  exact ⟨s', t', bytes, hread, hwrite, hstack, hlength⟩

end ContractHost
