import SmakChess.Turns
import SmakChess.EnPassant
import SmakChess.Sensors
import SmakChess.Mirror
import SmakChess.Shell
import SmakChess.Gestures
import SmakChess.PlyNumbers
import SmakChess.Chess
import SmakChess.Simulation
import SmakChess.LiftOrder
import SmakChess.GhostLift
import SmakChess.EnPassantCapture
import SmakChess.Conservation
import SmakChess.Replay
import SmakChess.Reset
import SmakChess.WorkQueue
import SmakChess.Listener
import SmakChess.Protobuf
import SmakChess.Messages
import SmakChess.Framing
import SmakChess.Pipeline
import SmakChess.Storage
import SmakChess.Conn
import SmakChess.Token
import SmakChess.Streams
import SmakChess.Engine
import SmakChess.Whisperer
import SmakChess.AnswerCuts
import SmakChess.ChessHpp
import SmakChess.FenList
import SmakChess.Fen
import SmakChess.RulesLibrary
import SmakChess.RowOrder
import SmakChess.TrueFens
import SmakChess.DbRest
import SmakChess.Viewer
import SmakChess.Selections
import SmakChess.SincePonr
import SmakChess.Promotion
import SmakChess.Loops
import SmakChess.FenLoop
import SmakChess.CodedGame
import SmakChess.EvalLoop
import SmakChess.EngineSafety
import SmakChess.FenReading
import SmakChess.MakeMoves
import SmakChess.BestmoveText
import SmakChess.Rounding
import SmakChess.Centipawns
import SmakChess.ScoreText
import SmakChess.GameOfFens
import SmakChess.UciCommands
import SmakChess.PostBuffer
import SmakChess.Attribution
import SmakChess.TokenText
import SmakChess.MoveMessage
import SmakChess.PostedMove
import SmakChess.GameIdStore
import SmakChess.PatchRows
import SmakChess.Navigation
import SmakChess.Kings
import SmakChess.PbEncode
import SmakChess.PbWrites
import SmakChess.PbDecode
import SmakChess.PbReads
import SmakChess.PbFields
import SmakChess.PbVarint
import SmakChess.PbWire
import SmakChess.PbMessages
import SmakChess.PbSizes
import SmakChess.PbLaws
import SmakChess.Objects
import SmakChess.Texts
import SmakChess.BoardFen
import SmakChess.BoardRoundTrip
import SmakChess.BoardWidget
import SmakChess.BoardPage
import SmakChess.BoardAnimations
import SmakChess.BoardGames
import SmakChess.BoardService
import SmakChess.MoveTable
import SmakChess.SentGame
import SmakChess.ShownGame
import SmakChess.DeviceSlots
import SmakChess.EngineSession
import SmakChess.EvalService
import SmakChess.ShownEvals
