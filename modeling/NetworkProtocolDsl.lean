import NetworkProtocolDsl.AgentTransitions
import NetworkProtocolDsl.BigStepEquivalence
import NetworkProtocolDsl.ConcurrentEof
import NetworkProtocolDsl.EndOfInput
import NetworkProtocolDsl.EscapeFragmentation
import NetworkProtocolDsl.IntegerField
import NetworkProtocolDsl.LoopRoundTrip
import NetworkProtocolDsl.MessageRoundTrip
import NetworkProtocolDsl.PeerAgreement
import NetworkProtocolDsl.GrammarAcceptance
import NetworkProtocolDsl.TreePrinter
import NetworkProtocolDsl.WireDuality
import NetworkProtocolDsl.PlainFragmentation
import NetworkProtocolDsl.ProtocolGraph
import NetworkProtocolDsl.ThreadErrno
import NetworkProtocolDsl.TransitionChoice
import NetworkProtocolDsl.CallbackEvaluation
import NetworkProtocolDsl.ConcurrentCallback
import NetworkProtocolDsl.GeneratedParser
import NetworkProtocolDsl.GeneratedRunner
import NetworkProtocolDsl.GeneratedServerWrapper
import NetworkProtocolDsl.InterpreterLoop
import NetworkProtocolDsl.LibuvServerRunner
import NetworkProtocolDsl.MessageReading
import NetworkProtocolDsl.MessageRecognition
import NetworkProtocolDsl.RunnerLoop
import NetworkProtocolDsl.WriteAgreement
import NetworkProtocolDsl.ParserStages
import NetworkProtocolDsl.ReadAgreement
import NetworkProtocolDsl.TerminatorCuts
import NetworkProtocolDsl.AsyncWorkQueue
import NetworkProtocolDsl.ConnectionTable
import NetworkProtocolDsl.HandleClose
import NetworkProtocolDsl.InterpreterCollectionManager
import NetworkProtocolDsl.OutstandingWrites
import NetworkProtocolDsl.MismatchReport
import NetworkProtocolDsl.WriteErrors
import NetworkProtocolDsl.GrammarDescent
import NetworkProtocolDsl.EofTiming
import NetworkProtocolDsl.GenerateRejection
import NetworkProtocolDsl.IntegerRoundTrip
import NetworkProtocolDsl.MemberPath
import NetworkProtocolDsl.DeclarationsKept
import NetworkProtocolDsl.ProtocolErrors
import NetworkProtocolDsl.LookaheadDispatch
import NetworkProtocolDsl.NamesApart
import NetworkProtocolDsl.IntegerConversion
import NetworkProtocolDsl.EscapeLoops
import NetworkProtocolDsl.GeneratedLoop
import NetworkProtocolDsl.ReadEvaluation
import NetworkProtocolDsl.WriteSequence
import NetworkProtocolDsl.StaticMatch
import NetworkProtocolDsl.InvocationTrace
import NetworkProtocolDsl.ListOperations
import NetworkProtocolDsl.ParserTermination
import NetworkProtocolDsl.ReadLog
import NetworkProtocolDsl.TransitionFrame
import NetworkProtocolDsl.ReadErrors
import NetworkProtocolDsl.FieldErrors
import NetworkProtocolDsl.Library.Session
import NetworkProtocolDsl.GeneratedPeers
import NetworkProtocolDsl.PlainTransfer
import NetworkProtocolDsl.Exchange
import NetworkProtocolDsl.ExchangeLookahead
import NetworkProtocolDsl.ExchangeSession
import NetworkProtocolDsl.ExchangeProgress
import NetworkProtocolDsl.ExchangeDelivery
import NetworkProtocolDsl.Library.MaximalMunch
import NetworkProtocolDsl.Tokenize
import NetworkProtocolDsl.LexicalGrammar
import NetworkProtocolDsl.LexicalRoundTrip
import NetworkProtocolDsl.InterpretedProgram
import NetworkProtocolDsl.ProtocolInfo
import NetworkProtocolDsl.RunnerConversation
import NetworkProtocolDsl.Library.Elaboration
import NetworkProtocolDsl.TypeMapping
import NetworkProtocolDsl.DeclaredShape
import NetworkProtocolDsl.DataTypes
import NetworkProtocolDsl.StructNames
import NetworkProtocolDsl.MemberTypes
import NetworkProtocolDsl.TakeDataTypes
import NetworkProtocolDsl.StateTypes
import NetworkProtocolDsl.TakenData
