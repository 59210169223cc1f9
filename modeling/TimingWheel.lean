import TimingWheel.Timer.Trial
import TimingWheel.Wheel.Geometry
import TimingWheel.Pool.Bench
import TimingWheel.Session.Calls
import TimingWheel.Demo.Basic
import TimingWheel.Main
import TimingWheel.Proofs.Wheel.Contents
import TimingWheel.Proofs.Wheel.Turn
import TimingWheel.Proofs.Agenda.Bookkeeping
import TimingWheel.Proofs.Agenda.Cancellation
import TimingWheel.Proofs.Agenda.Dispatch
import TimingWheel.Proofs.Agenda.Schedule
import TimingWheel.Proofs.Scheduler.Guarantees
import TimingWheel.Proofs.Scheduler.Timetable
import TimingWheel.Proofs.Agenda.Lateness
import TimingWheel.Proofs.Wheel.Meshing
import TimingWheel.Proofs.Agenda.Pace
import TimingWheel.Proofs.Agenda.Exactness
import TimingWheel.Proofs.Scheduler.Requests
import TimingWheel.Proofs.Agenda.Mirror
import TimingWheel.Proofs.Scheduler.Layout
import TimingWheel.Proofs.Agenda.Shadow
import TimingWheel.Proofs.Scheduler.Isolation
import TimingWheel.Proofs.Scheduler.Lifecycle
import TimingWheel.Proofs.Wheel.Growth
import TimingWheel.Proofs.Agenda.Progress
import TimingWheel.Proofs.Scheduler.Progress
import TimingWheel.Proofs.Agenda.Delay
import TimingWheel.Proofs.Scheduler.Laying
import TimingWheel.Proofs.Wheel.Abreast
import TimingWheel.Proofs.Agenda.Order
import TimingWheel.Proofs.Scheduler.Order
import TimingWheel.Proofs.Scheduler.Refusals
import TimingWheel.Proofs.Pool.Withdrawal
import TimingWheel.Proofs.Pool.Draining
import TimingWheel.Proofs.Pool.Containment
import TimingWheel.Proofs.Service.Mirror
import TimingWheel.Proofs.Service.Sessions
import TimingWheel.Proofs.Session.Cadence
import TimingWheel.Proofs.Wheel.Conservation
import TimingWheel.Proofs.Wheel.Timeline
import TimingWheel.Proofs.Wheel.Delivery
import TimingWheel.Proofs.Wheel.Counting
import TimingWheel.Proofs.Wheel.Execution
import TimingWheel.Proofs.Scheduler.Shift
