import MqttCpp.Message.Inverse
import MqttCpp.Message.Publish

/-!
# What writing does to a message

`Cerealiser::operator<<` takes its argument as `const` and casts that away, because `grain` does not
modify anything.  But the `grain` of a string narrows the length to 16 bits before it writes it, and
then resizes the string to what it has written.  So a message is left as it was exactly when each
string of it that is written has a length that fits.
-/

namespace MqttCpp

open Cereal

/-- Writing the message ends, and leaves it as it was. -/
def LeavesUnchanged {M : Type} [Cerealises M] (c : Cerealiser) (m : M) : Prop :=
  ∃ c', Cerealises.cerealise m c = .ok (m, c')

/-! ## Strings -/

/-- A string after it has been written: cut off to the length that 16 bits hold. -/
def cutOff (s : Str) : Str := s.take (s.length % 65536)

/-- Nothing is cut off from a string whose length fits. -/
lemma cutOff_eq_self_iff (s : Str) : cutOff s = s ↔ s.length ≤ 65535 := by
  rw [cutOff, List.take_eq_self_iff]
  omega

/-- Writing a string cuts it off. -/
lemma returns_grainString (s : Str) :
    Returns (grainString s : CerealM Cerealiser Str) (cutOff s) := by
  have hnum : (UInt16.ofNat s.length).toNat = s.length % 65536 := UInt16.toNat_ofNat'
  have hresize : (if s.length ≠ s.length % 65536 then resize (s.length % 65536) 0 s else s) =
      cutOff s := by
    split
    · have hle := Nat.mod_le s.length 65536
      simp [resize, cutOff, Nat.sub_eq_zero_of_le hle]
    · rename_i hfits
      rw [cutOff, ← not_not.mp hfits, List.take_length]
  unfold grainString
  apply (prints_grainUInt16 _).returns.bind
  rw [hnum, hresize]
  exact (prints_mapM_grainUInt8 (cutOff s)).returns

/-- Writing bits leaves them as they were, also those that are not written. -/
lemma returns_grainBits {T : Type} [BitField T] {val : T}
    (h : BitField.ofUInt32 (BitField.toUInt32 val) = val) (bits : ℕ) :
    Returns (grainBits val bits : CerealM Cerealiser T) val := by
  intro c
  rw [MqttFixedHeader.grainBits_write, h]
  exact ⟨_, rfl⟩

/-- A list in which each element stays as it is stays as it is. -/
lemma map_eq_self_iff {α : Type} {g : α → α} {as : List α} :
    as.map g = as ↔ ∀ a ∈ as, g a = a := by
  have hid : as.map g = as.map id ↔ ∀ a ∈ as, g a = id a := List.map_inj_left
  rwa [List.map_id] at hid

/-- Writing an array writes each element. -/
lemma returns_grainRawArray {T : Type} {grain : T → CerealM Cerealiser T} {g : T → T} {ts : List T}
    (h : ∀ t ∈ ts, Returns (grain t) (g t)) (default : T) :
    Returns (grainRawArray grain default ts : CerealM Cerealiser (List T)) (ts.map g) :=
  Returns.mapM h

/-- Writing a header leaves it as it was. -/
lemma MqttFixedHeader.returns_cerealise (h : MqttFixedHeader) :
    Returns (h.cerealise : CerealM Cerealiser MqttFixedHeader) h := by
  have hlast : Returns (h.setRemainingSize >>= fun _ => pure h :
      CerealM Cerealiser MqttFixedHeader) h :=
    h.prints_setRemainingSize.returns.bind (.pure h)
  unfold cerealise
  apply (returns_grainBits (ofUInt32_toUInt32_mqttType h.type) 4).bind
  apply (returns_grainBits (ofUInt32_toUInt32_bool h.dup) 1).bind
  apply (returns_grainBits (ofUInt32_toUInt32_uInt8 h.qos) 2).bind
  exact (returns_grainBits (ofUInt32_toUInt32_bool h.retain) 1).bind hlast

/-! ## CONNECT -/

namespace MqttConnect

/-- The message after it has been written. -/
def afterWriting (m : MqttConnect) : MqttConnect :=
  { m with
    protoName := cutOff m.protoName
    clientId := cutOff m.clientId
    willTopic := if m.hasWill then cutOff m.willTopic else m.willTopic
    willMessage := if m.hasWill then cutOff m.willMessage else m.willMessage
    userName := if m.hasUserName then cutOff m.userName else m.userName
    password := if m.hasPassword then cutOff m.password else m.password }

/-- Every string that is written has a length that fits. -/
def WrittenStringsFit (m : MqttConnect) : Prop :=
  m.protoName.length ≤ 65535 ∧ m.clientId.length ≤ 65535 ∧
    (m.hasWill = true → m.willTopic.length ≤ 65535 ∧ m.willMessage.length ≤ 65535) ∧
    (m.hasUserName = true → m.userName.length ≤ 65535) ∧
    (m.hasPassword = true → m.password.length ≤ 65535)

/-- Writing the flags leaves them as they were. -/
lemma returns_cerealiseFlags (m : MqttConnect) :
    Returns (m.cerealiseFlags : CerealM Cerealiser MqttConnect) m := by
  have hbool := fun b : Bool =>
    returns_grainBits (MqttFixedHeader.ofUInt32_toUInt32_bool b) 1
  unfold cerealiseFlags
  refine (hbool m.hasUserName).bind ((hbool m.hasPassword).bind ((hbool m.hasWillRetain).bind ?_))
  apply (returns_grainBits (MqttFixedHeader.ofUInt32_toUInt32_uInt8 m.willQos) 2).bind
  exact (hbool m.hasWill).bind ((hbool m.hasClear).bind ((hbool m.reserved).bind (.pure m)))

/-- Writing a string that is there only with a flag. -/
lemma returns_grainIf (flag : Bool) (s : Str) :
    Returns (grainIf flag s : CerealM Cerealiser Str) (if flag then cutOff s else s) := by
  cases flag with
  | true => exact returns_grainString s
  | false => exact .pure s

/-- Writing a CONNECT cuts off its strings. -/
theorem returns_cerealise (m : MqttConnect) :
    Returns (m.cerealise : CerealM Cerealiser MqttConnect) m.afterWriting := by
  unfold cerealise
  refine m.header.returns_cerealise.bind ((returns_grainString m.protoName).bind ?_)
  refine (prints_grainUInt8 m.protoVersion).returns.bind ((returns_cerealiseFlags _).bind ?_)
  unfold cerealiseRest
  refine (prints_grainUInt16 m.keepAlive).returns.bind ((returns_grainString m.clientId).bind ?_)
  apply (returns_grainIf m.hasWill m.willTopic).bind
  apply (returns_grainIf m.hasWill m.willMessage).bind
  apply (returns_grainIf m.hasUserName m.userName).bind
  exact (returns_grainIf m.hasPassword m.password).bind_pure fun password =>
    { m.afterWriting with password }

/-- It changes nothing exactly when the strings fit. -/
lemma afterWriting_eq_self_iff (m : MqttConnect) : m.afterWriting = m ↔ m.WrittenStringsFit := by
  have hif : ∀ (flag : Bool) (s : Str),
      (if flag then cutOff s else s) = s ↔ (flag = true → s.length ≤ 65535) := by
    intro flag s
    cases flag with
    | true => simp [cutOff_eq_self_iff]
    | false => simp
  obtain ⟨h, protoName, version, hasUserName, hasPassword, hasWillRetain, willQos, hasWill,
    hasClear, reserved, keepAlive, clientId, willTopic, willMessage, userName, password⟩ := m
  unfold afterWriting WrittenStringsFit
  simp only [mk.injEq, true_and, hif, cutOff_eq_self_iff, imp_and, and_assoc]

end MqttConnect

/-! ## PUBLISH -/

namespace MqttPublish

/-- The message after it has been written. -/
def afterWriting (m : MqttPublish) : MqttPublish := { m with topic := cutOff m.topic }

/-- Writing a PUBLISH cuts off its topic. -/
theorem returns_cerealise (m : MqttPublish) :
    Returns (m.cerealise : CerealM Cerealiser MqttPublish) m.afterWriting := by
  have hpayload := (prints_mapM_grainUInt8 m.payload).returns
  have hresize : ∀ payloadLen : UInt64,
      Returns (resizePayload m.payload payloadLen : CerealM Cerealiser Bytes) m.payload :=
    fun payloadLen => .pure m.payload
  obtain ⟨payloadLen, hid⟩ := m.prints_grainMsgId m.header
    (m.header.remaining.toUInt64 -
      (UInt64.ofNat (cutOff m.topic).length + UInt64.ofNat MqttFixedHeader.SIZE))
  unfold cerealise cerealiseBody
  refine m.header.returns_cerealise.bind ((returns_grainString m.topic).bind ?_)
  refine hid.returns.bind ((hresize payloadLen).bind ?_)
  exact hpayload.bind_pure fun payload => { m.afterWriting with payload }

/-- It changes nothing exactly when the topic fits. -/
lemma afterWriting_eq_self_iff (m : MqttPublish) :
    m.afterWriting = m ↔ m.topic.length ≤ 65535 := by
  obtain ⟨h, topic, payload, msgId⟩ := m
  simp [afterWriting, cutOff_eq_self_iff]

end MqttPublish

/-! ## SUBSCRIBE, UNSUBSCRIBE and SUBACK -/

/-- The message after it has been written. -/
def MqttSubscribe.afterWriting (m : MqttSubscribe) : MqttSubscribe :=
  { m with topics := m.topics.map fun t => { t with topic := cutOff t.topic } }

/-- The message after it has been written. -/
def MqttUnsubscribe.afterWriting (m : MqttUnsubscribe) : MqttUnsubscribe :=
  { m with topics := m.topics.map cutOff }

/-- Writing changes nothing exactly when the topics fit. -/
lemma MqttSubscribe.afterWriting_eq_self_iff (m : MqttSubscribe) :
    m.afterWriting = m ↔ ∀ t ∈ m.topics, t.topic.length ≤ 65535 := by
  have htopic : ∀ t : Topic, { t with topic := cutOff t.topic } = t ↔ t.topic.length ≤ 65535 := by
    rintro ⟨topic, qos⟩
    simp [cutOff_eq_self_iff]
  obtain ⟨h, msgId, topics⟩ := m
  simp [afterWriting, map_eq_self_iff, htopic]

/-- Writing changes nothing exactly when the topics fit. -/
lemma MqttUnsubscribe.afterWriting_eq_self_iff (m : MqttUnsubscribe) :
    m.afterWriting = m ↔ ∀ topic ∈ m.topics, topic.length ≤ 65535 := by
  obtain ⟨h, msgId, topics⟩ := m
  simp [afterWriting, map_eq_self_iff, cutOff_eq_self_iff]

/-- Writing a SUBSCRIBE cuts off its topics. -/
theorem MqttSubscribe.returns_cerealise (m : MqttSubscribe) :
    Returns (m.cerealise : CerealM Cerealiser MqttSubscribe) m.afterWriting := by
  have htopic : ∀ t : Topic,
      Returns (t.cerealise : CerealM Cerealiser Topic) { t with topic := cutOff t.topic } := by
    intro t
    unfold Topic.cerealise
    exact (returns_grainString t.topic).bind ((prints_grainUInt8 t.qos).returns.bind_pure
      fun qos => ({ topic := cutOff t.topic, qos } : Topic))
  unfold cerealise
  refine m.header.returns_cerealise.bind ((prints_grainUInt16 m.msgId).returns.bind ?_)
  exact (returns_grainRawArray (fun t _ => htopic t) {}).bind_pure (mk m.header m.msgId)

/-- Writing an UNSUBSCRIBE cuts off its topics. -/
theorem MqttUnsubscribe.returns_cerealise (m : MqttUnsubscribe) :
    Returns (m.cerealise : CerealM Cerealiser MqttUnsubscribe) m.afterWriting := by
  unfold cerealise
  refine m.header.returns_cerealise.bind ((prints_grainUInt16 m.msgId).returns.bind ?_)
  exact (returns_grainRawArray (fun t _ => returns_grainString t) []).bind_pure
    (mk m.header m.msgId)

/-- Writing a SUBACK leaves it as it was. -/
theorem MqttSuback.returns_cerealise (m : MqttSuback) :
    Returns (m.cerealise : CerealM Cerealiser MqttSuback) m := by
  have hqos : Returns (grainRawArray grainUInt8 0 m.qos : CerealM Cerealiser (List UInt8))
      m.qos := (prints_mapM_grainUInt8 m.qos).returns
  unfold cerealise
  refine m.header.returns_cerealise.bind ((prints_grainUInt16 m.msgId).returns.bind ?_)
  exact hqos.bind_pure (mk m.header m.msgId)

/-! ## All messages -/

/-- **Writing leaves a message unchanged** if and only if the length of every string of it that is
written fits into 16 bits; a SUBACK has none. -/
theorem leavesUnchanged_iff (c : Cerealiser) :
    (∀ m : MqttConnect, LeavesUnchanged c m ↔ m.WrittenStringsFit) ∧
      (∀ m : MqttPublish, LeavesUnchanged c m ↔ m.topic.length ≤ 65535) ∧
      (∀ m : MqttSubscribe, LeavesUnchanged c m ↔ ∀ t ∈ m.topics, t.topic.length ≤ 65535) ∧
      (∀ m : MqttUnsubscribe, LeavesUnchanged c m ↔ ∀ topic ∈ m.topics, topic.length ≤ 65535) ∧
      ∀ m : MqttSuback, LeavesUnchanged c m := by
  refine ⟨fun m => ?_, fun m => ?_, fun m => ?_, fun m => ?_, fun m => m.returns_cerealise c⟩
  all_goals
    rw [← m.afterWriting_eq_self_iff, eq_comm]
    exact m.returns_cerealise.eq_ok_iff c m

/-- A PUBLISH to a topic of `2 ^ 16` characters. -/
def publishToLongTopic : MqttPublish :=
  .new false 0 false (List.replicate 65536 97) [] 0

/-- Writing it leaves it with no topic. -/
theorem not_leavesUnchanged_publishToLongTopic :
    ¬LeavesUnchanged {} publishToLongTopic ∧
      ∃ c', publishToLongTopic.cerealise ({} : Cerealiser) =
        .ok ({ publishToLongTopic with topic := [] }, c') := by
  have hlen : publishToLongTopic.topic.length = 65536 := List.length_replicate
  have hcut : cutOff publishToLongTopic.topic = [] := by
    rw [cutOff, hlen]
    exact List.take_zero
  have hreturns := publishToLongTopic.returns_cerealise
  rw [MqttPublish.afterWriting, hcut] at hreturns
  refine ⟨fun hunchanged => ?_, hreturns {}⟩
  have heq := (hreturns.eq_ok_iff {} publishToLongTopic).mp hunchanged
  have htopic : publishToLongTopic.topic = [] := congrArg MqttPublish.topic heq
  rw [htopic] at hlen
  cases hlen

end MqttCpp
