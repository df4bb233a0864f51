import SplitTally.CommandLine.Folder
import SplitTally.Proofs.Assignments
import SplitTally.Proofs.ExactTotals
import SplitTally.Proofs.JsonText
import SplitTally.Proofs.KeyTexts

/-!
# From the command line and back

What is printed by a run that encodes measurements is read by a run that decrypts them, whatever
blanks have come around it. Both halves meet at the packet: the first run prints the text of a
packet that a client made of the measurements in its arguments, and the second run reads that packet
and finds in it the value of every metric.
-/

namespace SplitTally

/-- A public key is read back from its hexadecimal text. -/
theorem PublicKey.ofHex_toHex (key : PublicKey) : ofHex key.toHex = .ok key := by
  rw [ofHex_eq_ok_iff, toHex, ← Hex.decode_eq_ok_iff]
  exact Hex.decode_encode .upper key.bytes

namespace CommandLine

/-! ### Steps of runs -/

section Steps

variable {ε α β : Type} {message : String} {messages : ε → List String} {a : α}
  {e e' : Entropy}

/-- Another account of the failure changes no result. -/
theorem orFail_eq_ok_iff {r : Except ε α} : orFail message messages r = .ok a ↔ r = .ok a :=
  mapError_eq_ok_iff

/-- Another account of the failure changes nothing that is drawn. -/
theorem drawOrFail_eq_ok_iff {x : Draw ε α} :
    drawOrFail message messages x e = .ok a e' ↔ x e = .ok a e' :=
  Draw.mapError_eq_ok_iff

/-- A run goes on with a result that is there. -/
theorem orFail_bind {r : Except ε α} (h : r = .ok a) (f : α → Draw Failure β) :
    (Draw.ofExcept (orFail message messages r) >>= f) e = f a e := by
  rw [h]
  rfl

/-- A run goes on with what was drawn and with the rest of the stream. -/
theorem drawOrFail_bind {x : Draw ε α} (h : x e = .ok a e') (f : α → Draw Failure β) :
    (drawOrFail message messages x >>= f) e = f a e' := by
  have hx : drawOrFail message messages x e = .ok a e' := drawOrFail_eq_ok_iff.mpr h
  change EStateM.bind _ f e = _
  rw [EStateM.bind, hx]

end Steps

/-! ### The text of a packet -/

/-- No digit is a blank or the sign between the envelopes. -/
private theorem digit_ne {letters : Hex.Case} {n : ℕ} (hn : n < 16) :
    Blank.isBlank (Hex.digit letters n) = false ∧ Hex.digit letters n ≠ '$' := by
  interval_cases n <;> cases letters <;> decide

private theorem toList_packetText (packet : Packet) :
    (packetText packet).toList = packet.a.flatMap (Hex.digits .lower) ++
      '$' :: packet.b.flatMap (Hex.digits .lower) := by
  simp [packetText, Hex.encode]

/-- A text has no blanks around it if it has none in it. -/
theorem trim_append {before core after : String} (hbefore : ∀ c ∈ before.toList, Blank.isBlank c)
    (hafter : ∀ c ∈ after.toList, Blank.isBlank c)
    (hcore : ∀ c ∈ core.toList, Blank.isBlank c = false) :
    Blank.trim (before ++ core ++ after) = core := by
  rw [Blank.trim, String.toList_append, String.toList_append, List.append_assoc,
    Blank.trimList_append hbefore hafter (fun c hc => hcore c (List.mem_of_mem_head? hc))
      (fun c hc => hcore c (List.mem_of_getLast? hc)), String.ofList_toList]

/-- A packet is read back from its text with blanks around it. -/
theorem readPacket_packetText {before after : String}
    (hbefore : ∀ c ∈ before.toList, Blank.isBlank c)
    (hafter : ∀ c ∈ after.toList, Blank.isBlank c) (packet : Packet) :
    readPacket (before ++ packetText packet ++ after) = .ok (packet.a, packet.b) := by
  have hdigits (bytes : List UInt8) : ∀ c ∈ bytes.flatMap (Hex.digits .lower),
      Blank.isBlank c = false ∧ c ≠ '$' := by
    intro c hc
    obtain ⟨n, hn, rfl⟩ := Hex.exists_of_mem_digits hc
    exact digit_ne hn
  have hcore : ∀ c ∈ (packetText packet).toList, Blank.isBlank c = false := by
    intro c hc
    rw [toList_packetText, List.mem_append, List.mem_cons] at hc
    rcases hc with hc | rfl | hc
    · exact (hdigits _ c hc).1
    · decide
    · exact (hdigits _ c hc).1
  have hcut : Cut.textAtMark? '$' (packetText packet) =
      some (Hex.encode .lower packet.a, Hex.encode .lower packet.b) := by
    rw [Cut.textAtMark?_eq_some_iff, toList_packetText, Hex.encode, Hex.encode,
      String.toList_ofList, String.toList_ofList]
    exact ⟨fun hmem => (hdigits _ _ hmem).2 rfl, rfl⟩
  rw [readPacket, trim_append hbefore hafter hcore, hcut]
  simp only [Hex.decode_encode]
  rfl

/-! ### Encoding -/

section Runs

variable {schema : Schema} {key : Server → PrivateKey} {batch : String} {e rest : Entropy}

/-- A packet for the public keys of the servers is sent by a client. -/
theorem exists_sent_of_encodePacket {keyA keyB : String} {pairs : List (String × UInt64)}
    {packet : Packet} (hkeyA : PublicKey.ofHex keyA = .ok (key .a).toPublic)
    (hkeyB : PublicKey.ofHex keyB = .ok (key .b).toPublic)
    (h : encodePacket schema batch keyA keyB pairs e = .ok packet rest) :
    ∃ sent : Sent schema key (batchBytes batch),
      sent.measurements = .ofList pairs ∧ sent.packet = packet := by
  unfold encodePacket at h
  simp only [hkeyA, hkeyB, Draw.bind_eq_ok_iff, Draw.ofExcept_eq_ok_iff, orFail_eq_ok_iff,
    drawOrFail_eq_ok_iff] at h
  obtain ⟨keyA, _, ⟨hA, rfl⟩, keyB, _, ⟨hB, rfl⟩, client, _, ⟨hclient, rfl⟩, hencode⟩ := h
  obtain rfl := Except.ok.inj hA
  obtain rfl := Except.ok.inj hB
  exact ⟨⟨.ofList pairs, packet, client, e, rest, hclient, hencode⟩, rfl, rfl⟩

/-! ### Opening -/

/-- What a server is asked about a single packet: to form its message and to count the packet. -/
def visit (exchange : Exchange 1) (point : Residue) (server : Server) : List Teller.Call :=
  [.message point (exchange.bundle 0 server), exchange.count server 0]

/-- Only the second call of a visit adds something. -/
theorem filter_visit {exchange : Exchange 1}
    (hagrees : (exchange.message 0 .a).agrees (exchange.message 0 .b) = true) (point : Residue)
    (server : Server) :
    (visit exchange point server).filter Teller.Call.adds = List.ofFn (exchange.count server) := by
  have hcount : (exchange.count server 0).adds = true := hagrees
  have hmessage : (Teller.Call.message point (exchange.bundle 0 server)).adds = false := rfl
  simp [visit, hmessage, hcount]

/-- Out of a packet that was sent the servers get the value of every metric, from any stream on
which the first one chooses a point. -/
theorem openPacket_of_sent (sent : Sent schema key (batchBytes batch)) {point : Residue}
    (hpoint : (Teller.serving schema key (batchBytes batch) .a).choosePoint e = .ok point rest) :
    openPacket schema batch (key .a) (key .b) sent.packet.a sent.packet.b e = .ok
      (.ofList (schema.metrics.map fun m => (m.name, sent.measurements.value m.name))) rest := by
  obtain ⟨exchange, habout, xs, hxs⟩ := Exchange.exists_about (fun _ : Fin 1 => sent) fun _ => point
  have hlength (server : Server) (i : Fin 1) :
      (exchange.bundle i server).data.length = schema.dimension :=
    ((hxs i).2.length_data server).trans (Schema.length_encode (hxs i).1)
  have hrun (server : Server) := Exchange.serving_total schema key (batchBytes batch) habout.agrees
    (hlength server) (.of_eq (filter_visit (habout.agrees 0) point server))
  have haccepted (server : Server) := (hrun server).1 [_] 0 [] rfl
  have hsums : reconstructTotals
      ((Teller.serving schema key (batchBytes batch) .a).afterAll
        (visit exchange point .a)).verifier.total
      ((Teller.serving schema key (batchBytes batch) .b).afterAll
        (visit exchange point .b)).verifier.total = .ok ((xs 0).map Residue.word) := by
    rw [(hrun .a).2, (hrun .b).2, reconstructTotals,
      Residue.merge_slotSums_ofFn fun i => (hxs i).2.data]
    exact congrArg (fun slots => Except.ok (slots.map Residue.word))
      (Residue.slotSums_singleton (Schema.length_encode (hxs 0).1))
  unfold openPacket
  refine (orFail_bind (habout.decrypt_eq 0 .a []) _).trans ?_
  refine (orFail_bind (habout.decrypt_eq 0 .b []) _).trans ?_
  refine (drawOrFail_bind hpoint _).trans ?_
  refine (orFail_bind (habout.message_eq 0 .a []) _).trans ?_
  refine (orFail_bind (habout.message_eq 0 .b []) _).trans ?_
  refine (orFail_bind (haccepted .a) _).trans ?_
  refine (orFail_bind (haccepted .b) _).trans ?_
  refine (orFail_bind hsums _).trans ?_
  exact orFail_bind (Schema.decodeSums_of_encode (hxs 0).1) _

/-! ### Runs in a folder -/

/-- A job that is there is run, and what it reports is delivered. -/
theorem runIn_of_jobIn {invocation : Invocation} {folder : Folder}
    {standard : Except ReadFault String} {job : Job}
    (h : invocation.jobIn folder standard = .ok job) :
    invocation.runIn folder standard e =
      (job.run >>= fun report => Draw.ofExcept (report.deliver folder)) e := by
  rw [Invocation.runIn, h]
  rfl

/-- What is printed is the text that was reported. -/
theorem output_of_deliver {report : Report} {folder : Folder} {aftermath : Aftermath}
    (h : report.deliver folder = .ok aftermath) (hprinted : aftermath.output ≠ "") :
    aftermath.output = report.text := by
  unfold Report.deliver at h
  split at h
  · cases h
    rfl
  · split at h
    · cases h
    · -- the text goes to a file
      cases h
      exact absurd rfl hprinted
    · cases h
      rfl
    · -- the text goes to standard error
      cases h
      exact absurd rfl hprinted
    · cases h
    · cases h
      exact absurd rfl hprinted
    · cases h
      exact absurd rfl hprinted

/-- The line that is printed by a run that encodes measurements is the text of a packet that was
sent. -/
theorem exists_sent_of_runIn {sender : Invocation} {folder : Folder}
    {standard : Except ReadFault String} {hexA hexB line : String}
    {pairs : List (String × UInt64)} {output : Place} {aftermath : Aftermath}
    (hkeyA : PublicKey.ofHex hexA = .ok (key .a).toPublic)
    (hkeyB : PublicKey.ofHex hexB = .ok (key .b).toPublic)
    (hjob : sender.jobIn folder standard = .ok (.encode schema batch hexA hexB pairs output))
    (hrun : sender.runIn folder standard e = .ok aftermath rest)
    (hprinted : aftermath.output = line ++ "\n") :
    ∃ sent : Sent schema key (batchBytes batch), sent.measurements = .ofList pairs ∧
      line = packetText sent.packet := by
  have hne : line ++ "\n" ≠ "" := by
    rw [ne_eq, ← String.toList_inj]
    simp
  rw [runIn_of_jobIn hjob] at hrun
  obtain ⟨report, e₁, hreport, hdeliver⟩ := Draw.bind_eq_ok_iff.mp hrun
  obtain ⟨packet, e₂, hpacket, hpure⟩ := Draw.bind_eq_ok_iff.mp hreport
  obtain ⟨rfl, rfl⟩ := Draw.pure_eq_ok_iff.mp hpure
  obtain ⟨sent, hmeasurements, rfl⟩ := exists_sent_of_encodePacket hkeyA hkeyB hpacket
  refine ⟨sent, hmeasurements, (String.append_left_inj "\n").mp ?_⟩
  rw [← hprinted]
  exact output_of_deliver (Draw.ofExcept_eq_ok_iff.mp hdeliver).1 (hprinted ▸ hne)

/-- The text of a packet that was sent, with blanks around it, is decrypted to the value of every
metric. -/
theorem run_decrypt_of_sent (sent : Sent schema key (batchBytes batch)) {before after : String}
    {point : Residue} (hbefore : ∀ c ∈ before.toList, Blank.isBlank c)
    (hafter : ∀ c ∈ after.toList, Blank.isBlank c)
    (hpoint : (Teller.serving schema key (batchBytes batch) .a).choosePoint e = .ok point rest) :
    (Job.decrypt schema batch (key .a) (key .b)
      (before ++ packetText sent.packet ++ after)).run e = .ok {
        output := .standard
        text := measurementsText (.ofList
          (schema.metrics.map fun m => (m.name, sent.measurements.value m.name))) ++ "\n"
        note := ""
        unwritten := "could not write measurements" } rest := by
  have hread := readPacket_packetText hbefore hafter sent.packet
  refine Draw.bind_eq_ok_iff.mpr ⟨_, e, Draw.ofExcept_eq_ok_iff.mpr ⟨hread, rfl⟩, ?_⟩
  exact Draw.bind_eq_ok_iff.mpr ⟨_, rest, openPacket_of_sent sent hpoint, rfl⟩

/-- Measurements are read back from their text. -/
theorem readObject_measurementsText {measurements : Measurements}
    (hne : measurements.entries ≠ []) :
    Json.readObject (measurementsText measurements ++ "\n") =
      .ok (measurements.entries.map fun e => (e.1, .whole e.2.toNat)) := by
  have hwords : ∀ m ∈ measurements.entries.map fun e => (e.1, e.2.toNat),
      m.2 < Json.wordRange := by
    intro m hm
    obtain ⟨e, -, rfl⟩ := List.mem_map.mp hm
    exact e.2.toNat_lt
  have hlines := Json.readObject_writeLines (fun hnil => hne (List.map_eq_nil_iff.mp hnil)) hwords
  rw [List.map_map, List.map_map] at hlines
  exact hlines

/-- What a run that encodes arguments prints for the keys of the servers is read by every run that
decrypts with these keys under the same schema and batch, whatever blanks are around it and from
every stream on which the first server chooses a point. It prints an object with the names of the
metrics, each with the value that the last argument of its name assigns to it. -/
theorem Invocation.exists_members_of_printed {sender receiver : Invocation}
    {folder folder' : Folder} {standard standard' : Except ReadFault String}
    {hexA hexB line before after : String} {arguments : List String}
    {pairs : List (String × UInt64)} {output : Place} {aftermath : Aftermath} {point : Residue}
    {e' rest' : Entropy}
    (harguments : Command.readMeasurements arguments = .ok pairs)
    (hkeyA : PublicKey.ofHex hexA = .ok (key .a).toPublic)
    (hkeyB : PublicKey.ofHex hexB = .ok (key .b).toPublic)
    (hsender : sender.jobIn folder standard = .ok (.encode schema batch hexA hexB pairs output))
    (hsent : sender.runIn folder standard e = .ok aftermath rest)
    (hprinted : aftermath.output = line ++ "\n")
    (hbefore : ∀ c ∈ before.toList, Blank.isBlank c)
    (hafter : ∀ c ∈ after.toList, Blank.isBlank c)
    (hreceiver : receiver.jobIn folder' standard' =
      .ok (.decrypt schema batch (key .a) (key .b) (before ++ line ++ after)))
    (hpoint : (Teller.start schema.dimension .a (key .a) (batchBytes batch)).choosePoint e' =
      .ok point rest') :
    ∃ aftermath' members, receiver.runIn folder' standard' e' = .ok aftermath' rest' ∧
      Json.readObject aftermath'.output = .ok members ∧
      (members.map Prod.fst).Perm (schema.metrics.map Metric.name) ∧
      ∀ member ∈ members, ∃ value : UInt64,
        member.2 = .whole value.toNat ∧ LastAssigned arguments member.1 value := by
  obtain ⟨sent, hmeasurements, rfl⟩ := exists_sent_of_runIn hkeyA hkeyB hsender hsent hprinted
  have hreport := run_decrypt_of_sent sent hbefore hafter hpoint
  have hrun := (runIn_of_jobIn hreceiver).trans (Draw.bind_eq_ok_iff.mpr ⟨_, rest', hreport, rfl⟩)
  have hentries : (Measurements.ofList
      (schema.metrics.map fun m => (m.name, sent.measurements.value m.name))).entries.Perm
        (schema.metrics.map fun m => (m.name, sent.measurements.value m.name)) :=
    Measurements.perm_entries_ofList (by
      rw [List.map_map]
      exact schema.nodup_names)
  refine ⟨_, _, hrun, readObject_measurementsText fun hnil => ?_, ?_, fun member hmember => ?_⟩
  · rw [hnil] at hentries
    exact schema.metrics_ne_nil (List.map_eq_nil_iff.mp hentries.symm.eq_nil)
  · rw [List.map_map]
    have hnames := hentries.map Prod.fst
    rwa [List.map_map] at hnames
  · obtain ⟨entry, hentry, rfl⟩ := List.mem_map.mp hmember
    obtain ⟨m, -, rfl⟩ := List.mem_map.mp (hentries.subset hentry)
    refine ⟨_, rfl, ?_⟩
    rw [hmeasurements]
    exact lastAssigned_of_readMeasurements harguments m.name

/-- A private key is read from a file of the folder that holds its text, with blanks around it. -/
theorem readPrivateKey_eq_pure {folder : Folder} {path name : String} {key : PrivateKey}
    (hpath : (Path.ofText path).bind folder.locate = .ok (.file name))
    (hkey : PrivateKey.ofBase64 (Blank.trim ((folder.find? name).getD "")) = .ok key) :
    readPrivateKey folder.read path = pure key := by
  have hread : folder.read (.file path) = pure (.ok ((folder.find? name).getD "")) := by
    rw [Folder.read, hpath]
  rw [readPrivateKey, readText, hread]
  change (liftExcept (orFail _ _ _) : ExceptT Failure (StateM Folder.Pending) PrivateKey) = _
  rw [hkey]
  rfl

/-- A folder with the keys of both servers. -/
private def keyFolder : Folder :=
  ⟨[("a", "AQEBAQEBAQEBAQEBAQEBAQEBAQEBAQEBAQEBAQEBAQE=\n"),
    ("b", "AgICAgICAgICAgICAgICAgICAgICAgICAgICAgICAgI=\n")]⟩

private theorem splitOn_keyFolder {name : String} (h : name = "a" ∨ name = "b") :
    name.splitOn "/" = [name] := by
  -- Splitting is no structural recursion: it is unfolded at the letter and at the end.
  rcases h with rfl | rfl
  all_goals
    rw [String.splitOn, if_neg (by decide), String.splitOnAux, if_neg (by decide +kernel),
      if_neg (by decide +kernel), String.splitOnAux, if_pos (by decide +kernel)]
    decide +kernel

private theorem ofText_keyFolder {name : String} (h : name = "a" ∨ name = "b") :
    Path.ofText name = .ok ⟨false, [name], false⟩ := by
  have hnul : name.contains '\x00' = false := by
    rcases h with rfl | rfl <;> simp
  rw [Path.ofText, hnul, splitOn_keyFolder h]
  rcases h with rfl | rfl <;> decide +kernel

private theorem jobIn_keyFolder (text : String) :
    Invocation.jobIn keyFolder (.ok text) ⟨none, .decrypt "week 1" "a" "b" .standard⟩ =
      .ok (.decrypt Schema.browser "week 1" ⟨List.replicate 32 1, List.length_replicate⟩
        ⟨List.replicate 32 2, List.length_replicate⟩ text) := by
  have hpathA : (Path.ofText "a").bind keyFolder.locate = .ok (.file "a") := by
    rw [ofText_keyFolder (.inl rfl)]
    decide +kernel
  have hpathB : (Path.ofText "b").bind keyFolder.locate = .ok (.file "b") := by
    rw [ofText_keyFolder (.inr rfl)]
    decide +kernel
  have hkeyA : PrivateKey.ofBase64 (Blank.trim ((keyFolder.find? "a").getD "")) =
      .ok ⟨List.replicate 32 1, List.length_replicate⟩ := by
    decide +kernel
  have hkeyB : PrivateKey.ofBase64 (Blank.trim ((keyFolder.find? "b").getD "")) =
      .ok ⟨List.replicate 32 2, List.length_replicate⟩ := by
    decide +kernel
  rw [Invocation.jobIn, Invocation.prepare]
  dsimp only [Command.prepare]
  rw [readPrivateKey_eq_pure hpathA hkeyA, readPrivateKey_eq_pure hpathB hkeyB]
  rfl

/-- A metric that is assigned twice, in a packet that is printed for keys in files and comes in with
blanks around it. -/
theorem Invocation.exists_members_of_printed_of_repeated :
    ∃ (hexA hexB line : String) (folder : Folder)
      (aftermath aftermath' : Aftermath) (e rest e' rest' : Entropy)
      (members : List (String × Json.Value)),
      Invocation.runIn ⟨[]⟩ (.ok "") ⟨none, .encode "week 1" hexA hexB
        [("newTabPageEnabled", 0), ("newTabPageEnabled", 1)] .standard⟩ e = .ok aftermath rest ∧
      aftermath.output = line ++ "\n" ∧
      Invocation.runIn folder (.ok ("\t" ++ line ++ "\n\n"))
        ⟨none, .decrypt "week 1" "a" "b" .standard⟩ e' = .ok aftermath' rest' ∧
      Json.readObject aftermath'.output = .ok members ∧
      (members.map Prod.fst).Perm (Schema.browser.metrics.map Metric.name) ∧
      ∀ member ∈ members, ∃ value : UInt64, member.2 = .whole value.toNat ∧
        LastAssigned ["newTabPageEnabled=0", "newTabPageEnabled=1"] member.1 value := by
  let key (server : Server) : PrivateKey :=
    ⟨List.replicate 32 (Server.pick (1, 2) server), List.length_replicate⟩
  let pairs : List (String × UInt64) := [("newTabPageEnabled", 0), ("newTabPageEnabled", 1)]
  have harguments : Command.readMeasurements ["newTabPageEnabled=0", "newTabPageEnabled=1"] =
      .ok pairs := by
    decide +kernel
  have hfresh (server : Server) :
      ¬ (X25519.agree (List.replicate 32 3) (key server).toPublic.bytes).all (· = 0) := by
    cases server with
    | a => decide +kernel
    | b => decide +kernel
  have hencode : Schema.browser.encode (.ofList pairs) = .ok [0, 1, 0] := by
    decide +kernel
  have hbatch : (batchBytes "week 1").length ≤ 65535 := by
    decide +kernel
  obtain ⟨⟨m, packet, client, e, rest, hclient, hpacket⟩, hm⟩ := Sent.exists_of_fits
    (Schema.fits_of_encode hencode) hbatch ⟨List.replicate 32 3, rfl⟩ hfresh
  subst hm
  have hsender : Invocation.jobIn ⟨[]⟩ (.ok "") ⟨none, .encode "week 1" (key .a).toPublic.toHex
      (key .b).toPublic.toHex pairs .standard⟩ = .ok (.encode Schema.browser "week 1"
        (key .a).toPublic.toHex (key .b).toPublic.toHex pairs .standard) := rfl
  have hreport : encodePacket Schema.browser "week 1" (key .a).toPublic.toHex
      (key .b).toPublic.toHex pairs e = .ok packet rest := by
    refine (orFail_bind (PublicKey.ofHex_toHex _) _).trans ?_
    refine (orFail_bind (PublicKey.ofHex_toHex _) _).trans ?_
    refine (orFail_bind hclient _).trans ?_
    exact drawOrFail_eq_ok_iff.mpr hpacket
  have hsent := (runIn_of_jobIn hsender).trans (Draw.bind_eq_ok_iff.mpr
    ⟨_, rest, Draw.bind_eq_ok_iff.mpr ⟨packet, rest, hreport, rfl⟩, rfl⟩)
  have hpoint : (Teller.start 3 .a (key .a) (batchBytes "week 1")).choosePoint ⟨[5, 0, 0, 0]⟩ =
      .ok 5 ⟨[]⟩ := by
    rw [← Draw.runOn_eq_ok_iff]
    decide +kernel
  have hbefore : "\t".toList.all Blank.isBlank = true := by
    decide
  have hafter : "\n\n".toList.all Blank.isBlank = true := by
    decide
  obtain ⟨aftermath', members, hrun, hmembers⟩ := exists_members_of_printed harguments
    (PublicKey.ofHex_toHex _) (PublicKey.ofHex_toHex _) hsender hsent rfl
    (List.all_eq_true.mp hbefore) (List.all_eq_true.mp hafter) (jobIn_keyFolder _) hpoint
  exact ⟨_, _, _, keyFolder, _, aftermath', e, rest, ⟨[5, 0, 0, 0]⟩, ⟨[]⟩, members, hsent, rfl,
    hrun, hmembers⟩

end Runs

end CommandLine

end SplitTally
