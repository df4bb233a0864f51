import SplitTally.Proofs.Delivery
import SplitTally.Proofs.RunningTotal

/-!
# Exact totals

When both tellers have counted the same packets, each in an order of its own, their totals are
shares of the sums of the slots of the measurements, which decode to the sums of the values.
-/

namespace SplitTally

open Residue (slotSums)

/-! ### Runs of both servers -/

/-- What the servers hold of `n` packets: the bundles in them, and the messages about each packet at
a common point. -/
structure Exchange (n : ℕ) where
  /-- The bundle of a packet for a server. -/
  bundle : Fin n → Server → Bundle
  /-- The message of a server about a packet. -/
  message : Fin n → Server → Message

/-- The call by which a server counts a packet. -/
def Exchange.count {n : ℕ} (exchange : Exchange n) (server : Server) (i : Fin n) : Teller.Call :=
  .aggregate (exchange.bundle i server) (exchange.message i .a) (exchange.message i .b)

section Runs

variable (schema : Schema) (key : Server → PrivateKey) (batch : List UInt8)

/-- A server that has counted no packet yet. -/
def Teller.serving (server : Server) : Teller :=
  start schema.dimension server (key server) batch

/-- Whatever a server was asked, it keeps its number of slots, its key and its batch. -/
theorem Teller.serving_afterAll (server : Server) (calls : List Call) :
    ((serving schema key batch server).afterAll calls).verifier.Serves server schema.dimension ∧
      ((serving schema key batch server).afterAll calls).verifier.key = key server ∧
      ((serving schema key batch server).afterAll calls).verifier.batch = batch := by
  obtain ⟨total, hverifier⟩ := exists_total_afterAll (serving schema key batch server) calls
  rw [hverifier]
  exact ⟨⟨rfl, rfl⟩, rfl, rfl⟩

variable {schema key batch} {n : ℕ}

/-- The exchange is what the servers get out of packets, whatever they were asked before. -/
structure Exchange.About (exchange : Exchange n) (sent : Fin n → Sent schema key batch)
    (point : Fin n → Residue) : Prop where
  /-- The bundles are those in the envelopes. -/
  decrypt_eq : ∀ i server calls, ((Teller.serving schema key batch server).afterAll
    calls).verifier.decrypt ((sent i).packet.envelope server) = .ok (exchange.bundle i server)
  /-- The messages are formed about the bundles. -/
  message_eq : ∀ i server calls, (((Teller.serving schema key batch server).afterAll calls).message
    (point i) (exchange.bundle i server)).1 = .ok (exchange.message i server)
  /-- The messages accept the bundles. -/
  agrees : ∀ i, (exchange.message i .a).agrees (exchange.message i .b) = true

/-- For packets that were sent and points there is such an exchange, and its bundles hold shares of
the slots of the measurements. -/
theorem Exchange.exists_about (sent : Fin n → Sent schema key batch) (point : Fin n → Residue) :
    ∃ exchange : Exchange n, exchange.About sent point ∧
      ∃ xs : Fin n → List Residue, ∀ i, schema.encode (sent i).measurements = .ok (xs i) ∧
        SharedOut batch (xs i) (exchange.bundle i) := by
  choose xs bundle hxs hshared hdecrypt using fun i => (sent i).exists_bundles
  have hlength (i : Fin n) : (xs i).length = schema.dimension := Schema.length_encode (hxs i)
  have hmessages (i : Fin n) := (hshared i).exists_messages
    ((hlength i).trans_le schema.dimension_le) (Schema.bits_of_encode (hxs i)) (point i)
  choose message hagrees hmessage using hmessages
  refine ⟨⟨bundle, message⟩, ⟨fun i server calls => ?_, fun i server calls => ?_, hagrees⟩, xs,
    fun i => ⟨hxs i, hshared i⟩⟩
  · obtain ⟨hserves, hkey, hbatch⟩ := Teller.serving_afterAll schema key batch server calls
    exact hdecrypt i server _ hserves hkey hbatch
  · obtain ⟨hserves, -, -⟩ := Teller.serving_afterAll schema key batch server calls
    have hreachable :=
      Teller.reachable_afterAll schema.dimension server (key server) batch calls
    rw [Teller.serving, hreachable.message_eq schema.dimension_le]
    rw [← hlength i] at hserves
    exact hmessage i server _ hserves

/-- A server that counts every packet once, in any order and with any other calls in between that
add nothing, accepts each of them, and its total holds the sums of its shares. -/
theorem Exchange.serving_total (schema : Schema) (key : Server → PrivateKey) (batch : List UInt8)
    {exchange : Exchange n} {server : Server}
    (hagrees : ∀ i, (exchange.message i .a).agrees (exchange.message i .b) = true)
    (hlength : ∀ i, (exchange.bundle i server).data.length = schema.dimension)
    {calls : List Teller.Call}
    (hcalls : (calls.filter Teller.Call.adds).Perm (List.ofFn (exchange.count server))) :
    (∀ before i after, calls = before ++ exchange.count server i :: after →
      (((Teller.serving schema key batch server).afterAll before).aggregate
        (exchange.bundle i server) (exchange.message i .a) (exchange.message i .b)).1 = .ok true) ∧
    ((Teller.serving schema key batch server).afterAll calls).verifier.total =
      slotSums schema.dimension (List.ofFn fun i => (exchange.bundle i server).data) := by
  have hstart : (Teller.serving schema key batch server).verifier.total =
      slotSums schema.dimension [] := Teller.total_start _ _ _ _
  constructor
  · rintro before i after rfl
    have hbefore := Teller.total_afterAll hstart before
    rw [Teller.aggregate_answer (by rw [hbefore, Residue.length_slotSums]), if_pos (hagrees i),
      if_pos (hlength i)]
  · have hcounts : calls.filter (Teller.Call.counts schema.dimension) =
        calls.filter Teller.Call.adds := by
      refine List.filter_congr fun call hcall => ?_
      cases hadds : call.adds with
      | false => rw [Teller.Call.counts, hadds, Bool.false_and]
      | true =>
        have hcounted := hcalls.mem_iff.mp (List.mem_filter.mpr ⟨hcall, hadds⟩)
        obtain ⟨i, rfl⟩ := List.mem_ofFn.mp hcounted
        rw [Teller.Call.counts, hadds, Bool.true_and]
        exact decide_eq_true (hlength i)
    have hvectors := hcalls.map Teller.Call.shares
    rw [List.map_ofFn] at hvectors
    rw [Teller.total_afterAll hstart, List.nil_append, Teller.countedIn_eq hstart, hcounts,
      Residue.slotSums_of_perm hvectors]
    rfl

/-- Fewer packets than the modulus are counted exactly. Both servers get the bundles out of the
packets and form messages about them at common points, which accept them. When each server counts
every packet once, in an order of its own and with calls in between that add nothing, it accepts
every packet, and the totals of both decode to the sums of the values of the measurements, metric by
metric in the order of the schema. -/
theorem Exchange.exists_exact_totals (schema : Schema) (key : Server → PrivateKey)
    (batch : List UInt8) (hn : n < modulus) (sent : Fin n → Sent schema key batch)
    (point : Fin n → Residue) :
    ∃ exchange : Exchange n, exchange.About sent point ∧
      ∀ calls : Server → List Teller.Call,
        (∀ server, ((calls server).filter Teller.Call.adds).Perm
          (List.ofFn (exchange.count server))) →
        (∀ server before i after, calls server = before ++ exchange.count server i :: after →
          (((Teller.serving schema key batch server).afterAll before).aggregate
            (exchange.bundle i server) (exchange.message i .a) (exchange.message i .b)).1 =
              .ok true) ∧
        ∃ sums totals,
          reconstructTotals
            ((Teller.serving schema key batch .a).afterAll (calls .a)).verifier.total
            ((Teller.serving schema key batch .b).afterAll (calls .b)).verifier.total = .ok sums ∧
          schema.decodeSums sums = .ok totals ∧
          totals.map (fun t => (t.1, t.2.toNat)) = schema.metrics.map fun m =>
            (m.name, ∑ i, ((sent i).measurements.value m.name).toNat) := by
  obtain ⟨exchange, habout, xs, hxs⟩ := Exchange.exists_about sent point
  refine ⟨exchange, habout, fun calls hcalls => ?_⟩
  have hlength (server : Server) (i : Fin n) :
      (exchange.bundle i server).data.length = schema.dimension :=
    ((hxs i).2.length_data server).trans (Schema.length_encode (hxs i).1)
  have hrun (server : Server) :=
    serving_total schema key batch habout.agrees (hlength server) (hcalls server)
  have hsums : Residue.merge
      ((Teller.serving schema key batch .a).afterAll (calls .a)).verifier.total
      ((Teller.serving schema key batch .b).afterAll (calls .b)).verifier.total =
        .ok (slotSums schema.dimension (List.ofFn xs)) := by
    rw [(hrun .a).2, (hrun .b).2]
    exact Residue.merge_slotSums_ofFn fun i => (hxs i).2.data
  obtain ⟨totals, hdecode, htotals⟩ := Schema.decodeSums_slotSums hn fun i => (hxs i).1
  refine ⟨fun server => (hrun server).1, _, totals, ?_, hdecode, htotals⟩
  rw [reconstructTotals, hsums]
  rfl

/-- Two packets of one measurement, which the servers count in different orders and beside a pair of
messages that is refused. -/
theorem Exchange.exists_exact_totals_of_two :
    2 < modulus ∧ ∃ (key : Server → PrivateKey) (sent : Fin 2 → Sent Schema.browser key [])
      (exchange : Exchange 2), exchange.About sent (fun _ => 5) ∧ ∃ sums totals,
        reconstructTotals
          ((Teller.serving Schema.browser key [] .a).afterAll
            [.message 5 (exchange.bundle 0 .a), exchange.count .a 0,
              .aggregate ⟨[], .a, [], []⟩ ⟨0, 0, 1⟩ ⟨0, 0, 0⟩, exchange.count .a 1]).verifier.total
          ((Teller.serving Schema.browser key [] .b).afterAll
            [exchange.count .b 1, .aggregate ⟨[], .b, [], []⟩ ⟨0, 0, 1⟩ ⟨0, 0, 0⟩,
              exchange.count .b 0]).verifier.total = .ok sums ∧
        Schema.browser.decodeSums sums = .ok totals ∧
        totals.map (fun t => (t.1, t.2.toNat)) =
          [("browserIsUserDefault", 2), ("newTabPageEnabled", 0), ("userChromeCssLoaded", 0)] := by
  let key (server : Server) : PrivateKey :=
    ⟨List.replicate 32 (Server.pick (1, 2) server), List.length_replicate⟩
  have hfresh (server : Server) :
      ¬ (X25519.agree (List.replicate 32 3) (key server).toPublic.bytes).all (· = 0) := by
    cases server with
    | a => decide +kernel
    | b => decide +kernel
  have hencode : Schema.browser.encode (.ofList [("browserIsUserDefault", 1)]) = .ok [1, 0, 0] := by
    decide +kernel
  have hbatch : ([] : List UInt8).length ≤ 65535 := Nat.zero_le _
  obtain ⟨sent, hsent⟩ :=
    Sent.exists_of_fits (Schema.fits_of_encode hencode) hbatch ⟨List.replicate 32 3, rfl⟩ hfresh
  have htwo : 2 < modulus := by decide
  obtain ⟨exchange, habout, hrun⟩ :=
    exists_exact_totals Schema.browser key [] htwo (fun _ => sent) fun _ => 5
  have hcount (server : Server) (i : Fin 2) : (exchange.count server i).adds = true :=
    habout.agrees i
  have hrefused (bundle : Bundle) :
      (Teller.Call.aggregate bundle ⟨0, 0, 1⟩ ⟨0, 0, 0⟩).adds = false := by
    change Message.agrees _ _ = false
    decide
  have hmessage (bundle : Bundle) : (Teller.Call.message 5 bundle).adds = false := rfl
  have hpermA : ([.message 5 (exchange.bundle 0 .a), exchange.count .a 0,
      .aggregate ⟨[], .a, [], []⟩ ⟨0, 0, 1⟩ ⟨0, 0, 0⟩, exchange.count .a 1].filter
        Teller.Call.adds).Perm (List.ofFn (exchange.count .a)) := by
    simp [hmessage, hcount, hrefused, List.ofFn_succ]
  have hpermB : ([exchange.count .b 1, .aggregate ⟨[], .b, [], []⟩ ⟨0, 0, 1⟩ ⟨0, 0, 0⟩,
      exchange.count .b 0].filter Teller.Call.adds).Perm (List.ofFn (exchange.count .b)) := by
    simp [hcount, hrefused, List.ofFn_succ, List.Perm.swap]
  obtain ⟨-, sums, totals, hsums, hdecode, htotals⟩ := hrun (Server.pick (_, _)) fun server =>
    match server with
    | .a => hpermA
    | .b => hpermB
  refine ⟨htwo, key, fun _ => sent, exchange, habout, sums, totals, hsums, hdecode, ?_⟩
  rw [htotals]
  simp only [hsent]
  decide +kernel

end Runs

end SplitTally
