import Congestion.Feedback.Report

/-!
# Reports as text

One line for the header and one for each stream, with an item for every sequence number covered:
its mark and the time it waited for the report, or that it is lost.
-/

set_option autoImplicit false
set_option relaxedAutoImplicit false

namespace Congestion

namespace Report

def itemText (time : UInt64) (seq : UInt16) : Option Arrival → String
  | some a =>
    let delay := a.waited time
    s!" <{seq}:ecn={a.mark.bits},ato={delay}>"
  | none => s!" <{seq}:lost>"

def streamText (time : UInt64) (ssrc : UInt32) (b : StreamArrivals) : String :=
  s!"  ssrc={ssrc} count={b.count} end_seq={b.lastSeq}:" ++
    String.join (b.range.map fun seq ↦ itemText time seq (b.get? seq)) ++ "\n"

def text (r : Report) : String :=
  s!"FeedbackReport \x7b sender_ssrc: {r.sender}, report_time: {r.time} ms, " ++
    s!"feedback_seq: {r.number}, monitored: {r.monitored} ms \x7d\n" ++
    String.join (r.toList.map fun (ssrc, b) ↦ streamText r.time ssrc b)

end Report

end Congestion
